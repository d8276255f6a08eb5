import Mathlib.Data.List.Dedup
import Mathlib.Data.Finset.Dedup
import Mathlib.Data.Finset.Lattice.Basic
import MarkSdk.Lib.Overlay
import MarkSdk.Lib.Runs

/-!
`ScopeIds`, the set of retrievable ids that the store hands to retrieval.

A `ScopeIds` shares the base frozenset of the set it was derived from and
holds two overlays; its operations have fast paths on the base and on the
identity of objects. `Process` is every frozenset and every `ScopeIds` that a
Python process has made, so that `is` can be modelled: a frozenset is known
by its place, a `ScopeIds` by its token. `Twin` runs plain sets next to it.
-/

namespace MarkSdk

open Lib

variable {α : Type} [DecidableEq α]

/-- A frozenset object; `is` compares `obj`. -/
structure Frozen (α : Type) where
  obj : Nat
  ids : Finset α

structure ScopeIds (α : Type) [DecidableEq α] extends Overlay α where
  baseObj : Nat
  len : Int
  frozen : Option (Frozen α)
  token : Nat
  parent : Option Nat
  added : Finset α
  removed : Finset α
  len_eq : len = base.card + plus.card - minus.card
  frozen_eq : ∀ f ∈ frozen, f.ids = toOverlay.toFinset

/-- What the methods take: a `set`, a `frozenset`, a `dict`, a view on the
keys of one, any other iterable, or a `ScopeIds` (of type `S`). -/
inductive Operand (α S : Type) where
  | set (ids : Finset α)
  | frozenset (ids : Finset α)
  | dict (keys : Finset α)
  | view (keys : Finset α)
  | iterable (ids : List α)
  | scope (s : S)

namespace Operand

variable {S T : Type}

/-- The distinct ids that iterating over the operand yields. -/
def keys (ofScope : S → Finset α) : Operand α S → Finset α
  | .set ids | .frozenset ids | .dict ids | .view ids => ids
  | .iterable ids => ids.toFinset
  | .scope s => ofScope s

def map (f : S → T) : Operand α S → Operand α T
  | .set ids => .set ids
  | .frozenset ids => .frozenset ids
  | .dict ids => .dict ids
  | .view ids => .view ids
  | .iterable ids => .iterable ids
  | .scope s => .scope (f s)

/-- A `ScopeIds` among the operands is one of these. -/
def From (scopes : List S) : Operand α S → Prop
  | .scope s => s ∈ scopes
  | _ => True

end Operand

namespace ScopeIds

/-- `_init` on a base object; `frozen` is the base itself when nothing lies
on top of it. -/
def init (o : Overlay α) (baseObj token : Nat) : ScopeIds α where
  toOverlay := o
  baseObj := baseObj
  len := o.base.card + o.plus.card - o.minus.card
  frozen := if o.plus = ∅ ∧ o.minus = ∅ then some ⟨baseObj, o.base⟩ else none
  token := token
  parent := none
  added := ∅
  removed := ∅
  len_eq := rfl
  frozen_eq := by
    intro f hf
    split at hf
    · rename_i hempty
      cases hf
      rw [Overlay.toFinset, hempty.1, hempty.2, Finset.sdiff_empty, Finset.union_empty]
    · cases hf

/-- `ScopeIds(ids)` on a frozenset object. -/
def ofFrozenset (f : Frozen α) (token : Nat) : ScopeIds α := init (.ofBase f.ids) f.obj token

def contains (s : ScopeIds α) (item : α) : Bool :=
  if item ∈ s.plus then true else decide (item ∈ s.base) && !decide (item ∈ s.minus)

/-- The ids of `frozen()`, from the cache when it is filled. -/
def frozenIds (s : ScopeIds α) : Finset α :=
  match s.frozen with
  | some f => f.ids
  | none => (s.base \ s.minus) ∪ s.plus

/-- `frozen()` fills the cache; `obj` is the new object, if one is made. -/
def fill (s : ScopeIds α) (obj : Nat) : ScopeIds α :=
  match hs : s.frozen with
  | some _ => s
  | none =>
      { s with
        frozen := some ⟨obj, s.frozenIds⟩
        frozen_eq := by
          rintro f ⟨⟩
          rw [frozenIds, hs]
          rfl }

/-- `derive(base, added, removed)` on a `ScopeIds`; another `base` is made
into one first. `obj` is the object of a folded base. -/
def derive (compactMin obj token : Nat) (parent : ScopeIds α) (added removed : List α) :
    ScopeIds α :=
  let added := (added.filter fun x => !parent.contains x).toFinset
  let removed := (removed.filter parent.contains).toFinset
  let overlay := parent.toOverlay.shift added removed
  let new :=
    if ((overlay.plus.card + overlay.minus.card : Nat) : Int) > max (compactMin : Int) (parent.len / 64) then
      init overlay.fold obj token
    else
      init overlay parent.baseObj token
  { new with parent := some parent.token, added := added, removed := removed }

/-- Iteration, in whatever order the frozensets have: the base without
`minus`, then `plus`. -/
def iter (s : ScopeIds α) : Multiset α :=
  match s.frozen with
  | some f => f.ids.val
  | none => (s.base.filter fun x => x ∉ s.minus).val + s.plus.val

/-- The distinct ids that iterating over a `ScopeIds` yields. -/
def iterated (s : ScopeIds α) : Finset α := s.iter.toFinset

/-- `__eq__`; `none` is `NotImplemented`. -/
def eq (s : ScopeIds α) : Operand α (ScopeIds α) → Option Bool
  | .scope t =>
      if s.token = t.token then some true
      else if t.len ≠ s.len then some false
      else if t.baseObj = s.baseObj then some (decide (t.plus = s.plus) && decide (t.minus = s.minus))
      else some (decide (s.frozenIds = t.frozenIds))
  | .set ids | .frozenset ids =>
      some (decide ((ids.card : Int) = s.len) && decide (∀ x ∈ s.iter, x ∈ ids))
  | .view ids => some (decide ((ids.card : Int) = s.len) && decide (∀ x ∈ ids, s.contains x = true))
  | .dict _ | .iterable _ => none

/-- `s == other`: objects for which neither side has an answer differ. -/
def equals (s : ScopeIds α) (other : Operand α (ScopeIds α)) : Bool := (s.eq other).getD false

def difference (s : ScopeIds α) (others : List (Operand α (ScopeIds α))) : Finset α :=
  let others := others.map (Operand.keys iterated)
  others.foldl (· \ ·) (s.base \ s.minus) ∪ others.foldl (· \ ·) s.plus

def intersection (s : ScopeIds α) : List (Operand α (ScopeIds α)) → Finset α
  | [] => s.frozenIds
  | first :: rest =>
      (rest.map (Operand.keys iterated)).foldl (· ∩ ·)
        ((first.keys iterated).filter fun x => s.contains x = true)

def union (s : ScopeIds α) (others : List (Operand α (ScopeIds α))) : Finset α :=
  (others.map (Operand.keys iterated)).foldl (· ∪ ·) s.frozenIds

/-- `len(container)` in `issubset`, where another iterable became a set. -/
def lenOf : Operand α (ScopeIds α) → Int
  | .scope t => t.len
  | other => (other.keys iterated).card

/-- `container.__contains__`. -/
def containedIn (x : α) : Operand α (ScopeIds α) → Bool
  | .scope t => t.contains x
  | other => decide (x ∈ other.keys iterated)

def issubset (s : ScopeIds α) (other : Operand α (ScopeIds α)) : Bool :=
  decide (s.len ≤ lenOf other) && decide (∀ x ∈ s.iter, containedIn x other = true)

def issuperset (s : ScopeIds α) (other : Operand α (ScopeIds α)) : Bool :=
  decide (∀ x ∈ other.keys iterated, s.contains x = true)

end ScopeIds

/-! The same operations on a plain frozenset. -/

namespace Plain

def equals (ids : Finset α) : Operand α (Finset α) → Bool
  | .scope other | .set other | .frozenset other | .view other => decide (ids = other)
  | .dict _ | .iterable _ => false

def difference (ids : Finset α) (others : List (Operand α (Finset α))) : Finset α :=
  (others.map (Operand.keys id)).foldl (· \ ·) ids

def intersection (ids : Finset α) (others : List (Operand α (Finset α))) : Finset α :=
  (others.map (Operand.keys id)).foldl (· ∩ ·) ids

def union (ids : Finset α) (others : List (Operand α (Finset α))) : Finset α :=
  (others.map (Operand.keys id)).foldl (· ∪ ·) ids

def issubset (ids : Finset α) (other : Operand α (Finset α)) : Bool :=
  decide (ids ⊆ other.keys id)

def issuperset (ids : Finset α) (other : Operand α (Finset α)) : Bool :=
  decide (other.keys id ⊆ ids)

end Plain

namespace ScopeIds

variable (s t : ScopeIds α)

@[simp] theorem contains_eq_true {x : α} : s.contains x = true ↔ x ∈ s.toFinset := by
  rw [s.mem_toFinset, contains]
  by_cases hplus : x ∈ s.plus <;> simp [hplus]

theorem contains_eq_decide (x : α) : s.contains x = decide (x ∈ s.toFinset) := by
  rw [Bool.eq_iff_iff, contains_eq_true, decide_eq_true_iff]

@[simp] theorem frozenIds_eq : s.frozenIds = s.toFinset := by
  rw [frozenIds]
  split
  · rename_i f hf
    exact s.frozen_eq f hf
  · rfl

/-- Iteration meets every id of the set once: `plus` repeats nothing of the base. -/
theorem iter_eq : s.iter = s.toFinset.val := by
  rw [iter]
  split
  · rename_i f hf
    rw [s.frozen_eq f hf]
  · have hunion := Finset.disjUnion_eq_union _ _ s.sdiff_disjoint_plus
    have hbase : s.base \ s.minus = s.base.filter fun x => x ∉ s.minus :=
      Finset.sdiff_eq_filter _ _
    rw [Overlay.toFinset, ← hunion, Finset.disjUnion_val, hbase]

theorem mem_iter {x : α} : x ∈ s.iter ↔ x ∈ s.toFinset := by
  rw [iter_eq, Finset.mem_val]

@[simp] theorem iterated_eq : s.iterated = s.toFinset := by
  rw [iterated, iter_eq, Finset.val_toFinset]

theorem len_eq_card : s.len = s.toFinset.card := by
  have hlen := s.len_eq
  have hcard := s.card_toFinset
  omega

/-! `fill` changes the cache and nothing else. -/

section

variable (obj : Nat)

@[simp] theorem toOverlay_fill : (s.fill obj).toOverlay = s.toOverlay := by
  rw [fill]; split <;> rfl

@[simp] theorem baseObj_fill : (s.fill obj).baseObj = s.baseObj := by
  rw [fill]; split <;> rfl

@[simp] theorem token_fill : (s.fill obj).token = s.token := by
  rw [fill]; split <;> rfl

@[simp] theorem parent_fill : (s.fill obj).parent = s.parent := by
  rw [fill]; split <;> rfl

@[simp] theorem added_fill : (s.fill obj).added = s.added := by
  rw [fill]; split <;> rfl

@[simp] theorem removed_fill : (s.fill obj).removed = s.removed := by
  rw [fill]; split <;> rfl

theorem frozen_fill_of_none (hs : s.frozen = none) :
    (s.fill obj).frozen = some ⟨obj, s.toFinset⟩ := by
  rw [fill]
  split
  · rename_i f hf
    rw [hs] at hf
    cases hf
  · simp

end

/-! What `derive` makes. -/

section

variable (compactMin obj token : Nat) (parent : ScopeIds α) (added removed : List α)

/-- The ids of `added` that the parent lacks, the ids of `removed` it has. -/
theorem added_derive :
    (derive compactMin obj token parent added removed).added = added.toFinset \ parent.toFinset := by
  ext x
  simp [derive, contains_eq_decide]

theorem removed_derive :
    (derive compactMin obj token parent added removed).removed =
      removed.toFinset ∩ parent.toFinset := by
  ext x
  simp [derive]

@[simp] theorem token_derive :
    (derive compactMin obj token parent added removed).token = token := by
  simp only [derive]
  split <;> rfl

@[simp] theorem parent_derive :
    (derive compactMin obj token parent added removed).parent = some parent.token := rfl

/-- A filled cache is the base object. -/
theorem frozen_derive : let new := derive compactMin obj token parent added removed
    ∀ f ∈ new.frozen, f = ⟨new.baseObj, new.base⟩ := by
  have hinit (o : Overlay α) (baseObj : Nat) :
      ∀ f ∈ (init o baseObj token).frozen, f = ⟨baseObj, o.base⟩ := by
    intro f hf
    simp only [init] at hf
    split at hf
    · exact (Option.some.inj hf).symm
    · cases hf
  simp only [derive]
  split
  · exact hinit _ obj
  · exact hinit _ parent.baseObj

/-- The overlays stay on the parent's base or are folded into a new object. -/
theorem overlay_derive :
    let new := derive compactMin obj token parent added removed
    let moved := parent.toOverlay.shift (added.toFinset \ parent.toFinset)
      (removed.toFinset ∩ parent.toFinset)
    new.toOverlay = moved ∧ new.baseObj = parent.baseObj ∨
      new.toOverlay = moved.fold ∧ new.baseObj = obj := by
  have hadded := added_derive compactMin obj token parent added removed
  have hremoved := removed_derive compactMin obj token parent added removed
  simp only [derive] at hadded hremoved ⊢
  rw [hadded, hremoved]
  split
  · exact .inr ⟨rfl, rfl⟩
  · exact .inl ⟨rfl, rfl⟩

theorem toFinset_derive_eq :
    (derive compactMin obj token parent added removed).toFinset =
      (parent.toFinset ∪ (added.toFinset \ parent.toFinset)) \
        (removed.toFinset ∩ parent.toFinset) := by
  have hmoved : (parent.toOverlay.shift (added.toFinset \ parent.toFinset)
      (removed.toFinset ∩ parent.toFinset)).toFinset = _ :=
    parent.toFinset_shift Finset.sdiff_disjoint Finset.inter_subset_right
  obtain ⟨h, -⟩ | ⟨h, -⟩ := overlay_derive compactMin obj token parent added removed
  · rw [h, hmoved]
  · rw [h, Overlay.toFinset_fold, hmoved]

/-- The plain set of the step, as `added` and `removed` have nothing in common. -/
theorem toFinset_derive (hdisjoint : Disjoint added.toFinset removed.toFinset) :
    (derive compactMin obj token parent added removed).toFinset =
      (parent.toFinset ∪ added.toFinset) \ removed.toFinset := by
  rw [toFinset_derive_eq]
  ext x
  have hx : x ∈ added.toFinset → x ∉ removed.toFinset := fun h => Finset.disjoint_left.mp hdisjoint h
  simp only [Finset.mem_union, Finset.mem_sdiff, Finset.mem_inter]
  grind

/-- The recorded ids are the exact differences from the parent. -/
theorem differences_derive :
    let new := derive compactMin obj token parent added removed
    new.added = new.toFinset \ parent.toFinset ∧ new.removed = parent.toFinset \ new.toFinset := by
  refine ⟨?_, ?_⟩
  · rw [added_derive, toFinset_derive_eq]
    ext x
    simp only [Finset.mem_union, Finset.mem_sdiff, Finset.mem_inter]
    grind
  · rw [removed_derive, toFinset_derive_eq]
    ext x
    simp only [Finset.mem_union, Finset.mem_sdiff, Finset.mem_inter]
    grind

end

/-- One object, one content: what the short cuts of `__eq__` rely on. -/
structure SameObjects : Prop where
  token : s.token = t.token → s.toFinset = t.toFinset
  base : s.baseObj = t.baseObj → s.base = t.base

end ScopeIds

/-! ### Agreement with plain sets -/

namespace Operand

variable {S T : Type}

/-- Operands whose `ScopeIds` stand for the given sets have the same ids. -/
theorem keys_eq_of_from {pairs : List (ScopeIds α × Finset α)}
    (hpairs : ∀ p ∈ pairs, p.1.toFinset = p.2) {o : Operand α (ScopeIds α × Finset α)}
    (ho : o.From pairs) :
    (o.map Prod.fst).keys ScopeIds.iterated = (o.map Prod.snd).keys id := by
  cases o with
  | scope p =>
      show p.1.iterated = p.2
      rw [ScopeIds.iterated_eq, hpairs p ho]
  | _ => rfl

theorem map_keys_eq_of_from {pairs : List (ScopeIds α × Finset α)}
    (hpairs : ∀ p ∈ pairs, p.1.toFinset = p.2) {os : List (Operand α (ScopeIds α × Finset α))}
    (hos : ∀ o ∈ os, o.From pairs) :
    (os.map (Operand.map Prod.fst)).map (keys ScopeIds.iterated) =
      (os.map (Operand.map Prod.snd)).map (keys id) := by
  rw [List.map_map, List.map_map]
  exact List.map_congr_left fun o ho => keys_eq_of_from hpairs (hos o ho)

end Operand

omit [DecidableEq α] in
theorem mem_foldl_sdiff [DecidableEq α] {x : α} {others : List (Finset α)} {ids : Finset α} :
    x ∈ others.foldl (· \ ·) ids ↔ x ∈ ids ∧ ∀ other ∈ others, x ∉ other := by
  induction others generalizing ids with
  | nil => simp
  | cons other others ih =>
      rw [List.foldl_cons, ih, Finset.mem_sdiff, List.forall_mem_cons, and_assoc]

namespace ScopeIds

/-- The set `s` and the plain set agree on every operation, whatever of the
given pairs the operands are. -/
structure Agrees (pairs : List (ScopeIds α × Finset α)) (s : ScopeIds α) (ids : Finset α) :
    Prop where
  contains : ∀ x, s.contains x = decide (x ∈ ids)
  iter : s.iter = ids.val
  len : s.len = ids.card
  frozen : s.frozenIds = ids
  equals : ∀ o : Operand α (ScopeIds α × Finset α), o.From pairs →
    s.equals (o.map Prod.fst) = Plain.equals ids (o.map Prod.snd)
  difference : ∀ os : List (Operand α (ScopeIds α × Finset α)), (∀ o ∈ os, o.From pairs) →
    s.difference (os.map (.map Prod.fst)) = Plain.difference ids (os.map (.map Prod.snd))
  intersection : ∀ os : List (Operand α (ScopeIds α × Finset α)), (∀ o ∈ os, o.From pairs) →
    s.intersection (os.map (.map Prod.fst)) = Plain.intersection ids (os.map (.map Prod.snd))
  union : ∀ os : List (Operand α (ScopeIds α × Finset α)), (∀ o ∈ os, o.From pairs) →
    s.union (os.map (.map Prod.fst)) = Plain.union ids (os.map (.map Prod.snd))
  issubset : ∀ o : Operand α (ScopeIds α × Finset α), o.From pairs →
    s.issubset (o.map Prod.fst) = Plain.issubset ids (o.map Prod.snd)
  issuperset : ∀ o : Operand α (ScopeIds α × Finset α), o.From pairs →
    s.issuperset (o.map Prod.fst) = Plain.issuperset ids (o.map Prod.snd)

variable {s t : ScopeIds α}

theorem eq_scope (h : SameObjects s t) :
    s.equals (.scope t) = decide (s.toFinset = t.toFinset) := by
  rw [equals, eq]
  split
  · rename_i htoken
    simp [h.token htoken]
  split
  · -- sets of one content have one length
    rename_i hlen
    have hne : s.toFinset ≠ t.toFinset := by
      intro hset
      rw [len_eq_card, len_eq_card, hset] at hlen
      exact hlen rfl
    simp [hne]
  split
  · -- over one base the overlays are the set
    rename_i hobj
    have hinj := Overlay.toFinset_inj_of_base (h.base hobj.symm)
    rw [Option.getD_some, Bool.eq_iff_iff, Bool.and_eq_true, decide_eq_true_iff, decide_eq_true_iff,
      decide_eq_true_iff, hinj, eq_comm, @eq_comm _ t.minus]
  · rw [Option.getD_some, frozenIds_eq, frozenIds_eq]

omit [DecidableEq α] in
/-- As many ids as the set has, all of them in it: the same ids. -/
theorem card_and_forall_iff {ids other : Finset α} :
    (other.card = ids.card ∧ ∀ x ∈ ids, x ∈ other) ↔ ids = other := by
  constructor
  · rintro ⟨hcard, hsub⟩
    exact Finset.eq_of_subset_of_card_le hsub hcard.le
  · rintro rfl
    exact ⟨rfl, fun x hx => hx⟩

theorem equals_set (s : ScopeIds α) (ids : Finset α) :
    s.equals (.set ids) = decide (s.toFinset = ids) := by
  rw [equals, eq, Option.getD_some, Bool.eq_iff_iff, Bool.and_eq_true, decide_eq_true_iff,
    decide_eq_true_iff, decide_eq_true_iff, ← card_and_forall_iff, len_eq_card, Int.ofNat_inj]
  simp only [mem_iter]

theorem equals_view (s : ScopeIds α) (ids : Finset α) :
    s.equals (.view ids) = decide (s.toFinset = ids) := by
  rw [equals, eq, Option.getD_some, Bool.eq_iff_iff, Bool.and_eq_true, decide_eq_true_iff,
    decide_eq_true_iff, decide_eq_true_iff, eq_comm (a := s.toFinset), ← card_and_forall_iff,
    len_eq_card, Int.ofNat_inj, eq_comm (a := ids.card)]
  simp only [contains_eq_true]

theorem agrees_of {pairs : List (ScopeIds α × Finset α)} (hpairs : ∀ p ∈ pairs, p.1.toFinset = p.2)
    (hobjects : ∀ p ∈ pairs, SameObjects s p.1) : Agrees pairs s s.toFinset where
  contains := s.contains_eq_decide
  iter := s.iter_eq
  len := s.len_eq_card
  frozen := s.frozenIds_eq
  equals := by
    intro o ho
    cases o with
    | scope p =>
        show s.equals (.scope p.1) = decide (s.toFinset = p.2)
        rw [eq_scope (hobjects p ho), hpairs p ho]
    | set ids => exact s.equals_set ids
    | frozenset ids => exact s.equals_set ids
    | view ids => exact s.equals_view ids
    | dict ids => rfl
    | iterable ids => rfl
  difference := by
    intro os hos
    rw [difference, Plain.difference, Operand.map_keys_eq_of_from hpairs hos]
    ext x
    rw [Finset.mem_union, mem_foldl_sdiff, mem_foldl_sdiff, mem_foldl_sdiff, ← or_and_right,
      Overlay.toFinset, Finset.mem_union]
  intersection := by
    intro os hos
    cases os with
    | nil => exact s.frozenIds_eq
    | cons first rest =>
        have hkeys := Operand.keys_eq_of_from hpairs (hos first List.mem_cons_self)
        have hrest := Operand.map_keys_eq_of_from hpairs fun o ho =>
          hos o (List.mem_cons_of_mem first ho)
        rw [List.map_cons, intersection, hrest, hkeys, Plain.intersection, List.map_cons,
          List.map_cons, List.foldl_cons]
        congr 1
        ext x
        simp [and_comm]
  union := by
    intro os hos
    rw [union, Plain.union, Operand.map_keys_eq_of_from hpairs hos, frozenIds_eq]
  issubset := by
    intro o ho
    have hkeys := Operand.keys_eq_of_from hpairs ho
    have hlen : lenOf (o.map Prod.fst) = ((o.map Prod.fst).keys iterated).card := by
      cases o with
      | scope p => simp [Operand.map, lenOf, Operand.keys, len_eq_card]
      | _ => rfl
    have hmem (x : α) :
        containedIn x (o.map Prod.fst) = decide (x ∈ (o.map Prod.fst).keys iterated) := by
      cases o with
      | scope p => simp [Operand.map, containedIn, Operand.keys, contains_eq_decide]
      | _ => rfl
    rw [issubset, Plain.issubset, hlen, len_eq_card, hkeys, Bool.eq_iff_iff,
      Bool.and_eq_true, decide_eq_true_iff, decide_eq_true_iff, decide_eq_true_iff, Int.ofNat_le]
    simp only [hmem, hkeys, decide_eq_true_iff, mem_iter]
    exact ⟨fun h => h.2, fun h => ⟨Finset.card_le_card h, h⟩⟩
  issuperset := by
    intro o ho
    rw [issuperset, Plain.issuperset, Operand.keys_eq_of_from hpairs ho]
    simp only [contains_eq_true]
    rfl

end ScopeIds

/-! ### The objects of a process -/

/-- The frozensets and the `ScopeIds` of a process, in the order they were
made. -/
structure Process (α : Type) [DecidableEq α] where
  frozensets : List (Finset α)
  scopes : List (ScopeIds α)
  nextToken : Nat

/-- What makes an object: some code builds a frozenset, `ScopeIds(ids)` on a
frozenset, on another iterable or on a `ScopeIds`, a call of `frozen()`,
which the comparisons also make, and `derive`. The smallest overlay that is
folded is read at each call. -/
inductive ScopeStep (α : Type) where
  | frozenset (ids : List α)
  | ofFrozenset (obj : Nat)
  | ofIterable (ids : List α)
  | ofScope (i : Nat)
  | frozen (i : Nat)
  | derive (compactMin i : Nat) (added removed : List α)

namespace Process

def empty : Process α := ⟨[], [], 1⟩

def alloc (p : Process α) (ids : Finset α) : Process α :=
  { p with frozensets := p.frozensets ++ [ids] }

def push (p : Process α) (s : ScopeIds α) : Process α :=
  { p with scopes := p.scopes ++ [s], nextToken := p.nextToken + 1 }

/-- `frozen()` on the `ScopeIds` in place `i`. -/
def freeze (p : Process α) (i : Nat) : Process α :=
  match p.scopes[i]? with
  | none => p
  | some s =>
      match s.frozen with
      | some _ => p
      | none =>
          { p.alloc s.frozenIds with scopes := p.scopes.set i (s.fill p.frozensets.length) }

/-- The object that `frozen()` returned in place `i`. -/
def frozenAt (p : Process α) (i : Nat) : Option (Frozen α) :=
  p.scopes[i]?.bind ScopeIds.frozen

def derive (p : Process α) (compactMin : Nat) (parent : ScopeIds α) (added removed : List α) :
    Process α :=
  let obj := p.frozensets.length
  let new := parent.derive compactMin obj p.nextToken added removed
  (if new.baseObj = obj then p.alloc new.base else p).push new

def step : ScopeStep α → Process α → Process α
  | .frozenset ids, p => p.alloc ids.toFinset
  | .ofFrozenset obj, p =>
      match p.frozensets[obj]? with
      | none => p
      | some ids => p.push (.ofFrozenset ⟨obj, ids⟩ p.nextToken)
  | .ofIterable ids, p =>
      (p.alloc ids.toFinset).push (.ofFrozenset ⟨p.frozensets.length, ids.toFinset⟩ p.nextToken)
  | .ofScope i, p =>
      match (p.freeze i).frozenAt i with
      | none => p.freeze i
      | some f => (p.freeze i).push (.ofFrozenset f (p.freeze i).nextToken)
  | .frozen i, p => p.freeze i
  | .derive compactMin i added removed, p =>
      match p.scopes[i]? with
      | none => p
      | some parent => p.derive compactMin parent added removed

end Process

/-- A process next to the plain set of each of its `ScopeIds`. -/
structure Twin (α : Type) [DecidableEq α] where
  process : Process α
  sets : List (Finset α)

namespace Twin

def empty : Twin α := ⟨.empty, []⟩

/-- The plain set that the step makes, computed from the plain sets. -/
def made (w : Twin α) : ScopeStep α → Option (Finset α)
  | .frozenset _ | .frozen _ => none
  | .ofFrozenset obj => w.process.frozensets[obj]?
  | .ofIterable ids => some ids.toFinset
  | .ofScope i => w.sets[i]?
  | .derive _ i added removed =>
      w.sets[i]?.map fun ids => (ids ∪ added.toFinset) \ removed.toFinset

def step (st : ScopeStep α) (w : Twin α) : Twin α :=
  ⟨w.process.step st, w.sets ++ (w.made st).toList⟩

/-- Each `ScopeIds` of the process with its plain set. -/
def pairs (w : Twin α) : List (ScopeIds α × Finset α) := w.process.scopes.zip w.sets

end Twin

/-- As the callers pass them, `added` and `removed` share no id. -/
def ScopeStep.DisjointDelta : ScopeStep α → Prop
  | .derive _ _ added removed => Disjoint added.toFinset removed.toFinset
  | _ => True

instance : (st : ScopeStep α) → Decidable st.DisjointDelta
  | .derive _ _ added removed =>
      inferInstanceAs (Decidable (Disjoint added.toFinset removed.toFinset))
  | .frozenset _ | .ofFrozenset _ | .ofIterable _ | .ofScope _ | .frozen _ => isTrue trivial

/-! ### Every chain of steps -/

/-- The recorded ids are the exact differences from the set whose token is
the parent's. -/
def ScopeIds.Lineage (scopes : List (ScopeIds α)) (s : ScopeIds α) : Prop :=
  match s.parent with
  | none => s.added = ∅ ∧ s.removed = ∅
  | some token =>
      ∃ q ∈ scopes, q.token = token ∧ s.added = s.toFinset \ q.toFinset ∧
        s.removed = q.toFinset \ s.toFinset

theorem ScopeIds.Lineage.mono {scopes scopes' : List (ScopeIds α)} {s : ScopeIds α}
    (h : s.Lineage scopes)
    (hscopes : ∀ q ∈ scopes, ∃ q' ∈ scopes', q'.token = q.token ∧ q'.toFinset = q.toFinset) :
    s.Lineage scopes' := by
  rw [Lineage] at h ⊢
  split
  · rename_i hparent
    rwa [hparent] at h
  · rename_i token hparent
    rw [hparent] at h
    obtain ⟨q, hq, htoken, hadded, hremoved⟩ := h
    obtain ⟨q', hq', htoken', hset⟩ := hscopes q hq
    exact ⟨q', hq', htoken'.trans htoken, by rw [hset, hadded], by rw [hset, hremoved]⟩

namespace Process

variable {p : Process α} {i : Nat}

theorem freeze_cases (p : Process α) (i : Nat) :
    p.freeze i = p ∧ (∀ s, p.scopes[i]? = some s → s.frozen ≠ none) ∨
      ∃ s, p.scopes[i]? = some s ∧ s.frozen = none ∧
        p.freeze i = { p.alloc s.toFinset with
          scopes := p.scopes.set i (s.fill p.frozensets.length) } := by
  rw [freeze]
  split
  · rename_i hnone
    refine .inl ⟨rfl, fun s hs => ?_⟩
    rw [hnone] at hs
    cases hs
  · rename_i s hs
    split
    · rename_i f hf
      refine .inl ⟨rfl, fun t ht => ?_⟩
      cases hs.symm.trans ht
      simp [hf]
    · rename_i hf
      exact .inr ⟨s, hs, hf, by rw [s.frozenIds_eq]⟩

theorem frozenAt_freeze {s : ScopeIds α} (hs : p.scopes[i]? = some s) :
    ∃ f, (p.freeze i).frozenAt i = some f ∧ f.ids = s.toFinset := by
  obtain ⟨hsame, hfilled⟩ | ⟨t, ht, hnone, hfreeze⟩ := p.freeze_cases i
  · obtain ⟨f, hf⟩ := Option.ne_none_iff_exists'.mp (hfilled s hs)
    rw [hsame, frozenAt, hs]
    exact ⟨f, hf, s.frozen_eq f hf⟩
  · cases hs.symm.trans ht
    obtain ⟨hi, -⟩ := List.getElem?_eq_some_iff.mp hs
    rw [hfreeze, frozenAt]
    refine ⟨⟨p.frozensets.length, s.toFinset⟩, ?_, rfl⟩
    show ((p.scopes.set i (s.fill p.frozensets.length))[i]?).bind ScopeIds.frozen = _
    rw [List.getElem?_set_self hi]
    exact s.frozen_fill_of_none _ hnone

end Process

namespace Twin

structure Refines (w : Twin α) : Prop where
  sets : w.process.scopes.map (fun s => s.toFinset) = w.sets
  token_lt : ∀ s ∈ w.process.scopes, s.token < w.process.nextToken
  token_nodup : (w.process.scopes.map ScopeIds.token).Nodup
  base : ∀ s ∈ w.process.scopes, w.process.frozensets[s.baseObj]? = some s.base
  frozen : ∀ s ∈ w.process.scopes, ∀ f ∈ s.frozen, w.process.frozensets[f.obj]? = some f.ids
  lineage : ∀ s ∈ w.process.scopes, s.Lineage w.process.scopes

variable {p : Process α} {sets : List (Finset α)}

theorem refines_empty : (empty : Twin α).Refines where
  sets := rfl
  token_lt := by rintro s ⟨⟩
  token_nodup := List.nodup_nil
  base := by rintro s ⟨⟩
  frozen := by rintro s ⟨⟩
  lineage := by rintro s ⟨⟩

theorem Refines.getElem? {w : Twin α} (h : w.Refines) (i : Nat) :
    w.sets[i]? = w.process.scopes[i]?.map fun s => s.toFinset := by
  rw [← h.sets, List.getElem?_map]

/-- An object keeps its place when another one is made. -/
theorem known_alloc {i : Nat} {ids : Finset α} (h : p.frozensets[i]? = some ids) (new : Finset α) :
    (p.alloc new).frozensets[i]? = some ids := by
  obtain ⟨hi, -⟩ := List.getElem?_eq_some_iff.mp h
  rw [Process.alloc, List.getElem?_append_left hi]
  exact h

theorem alloc_last (p : Process α) (new : Finset α) :
    (p.alloc new).frozensets[p.frozensets.length]? = some new := by
  rw [Process.alloc, List.getElem?_concat_length]

theorem Refines.alloc (h : (⟨p, sets⟩ : Twin α).Refines) (new : Finset α) :
    (⟨p.alloc new, sets⟩ : Twin α).Refines where
  sets := h.sets
  token_lt := h.token_lt
  token_nodup := h.token_nodup
  base := fun s hs => known_alloc (h.base s hs) new
  frozen := fun s hs f hf => known_alloc (h.frozen s hs f hf) new
  lineage := h.lineage

theorem Refines.push (h : (⟨p, sets⟩ : Twin α).Refines) {s : ScopeIds α}
    (htoken : s.token = p.nextToken) (hbase : p.frozensets[s.baseObj]? = some s.base)
    (hfrozen : ∀ f ∈ s.frozen, p.frozensets[f.obj]? = some f.ids) (hlineage : s.Lineage p.scopes) :
    (⟨p.push s, sets ++ [s.toFinset]⟩ : Twin α).Refines where
  sets := by
    rw [Process.push, List.map_append, h.sets]
    rfl
  token_lt := by
    intro t ht
    have hlt := h.token_lt
    rcases List.mem_append.mp ht with ht | ht
    · exact Nat.lt_succ_of_lt (hlt t ht)
    · rw [List.mem_singleton.mp ht, htoken]
      exact Nat.lt_succ_self _
  token_nodup := by
    rw [Process.push, List.map_append, List.nodup_append]
    refine ⟨h.token_nodup, List.nodup_singleton _, ?_⟩
    rintro a ha b hb rfl
    obtain ⟨t, ht, rfl⟩ := List.mem_map.mp ha
    have hlt := h.token_lt t ht
    rw [List.map_singleton, List.mem_singleton] at hb
    rw [hb, htoken] at hlt
    exact Nat.lt_irrefl _ hlt
  base := by
    intro t ht
    rcases List.mem_append.mp ht with ht | ht
    · exact h.base t ht
    · rw [List.mem_singleton.mp ht]
      exact hbase
  frozen := by
    intro t ht
    rcases List.mem_append.mp ht with ht | ht
    · exact h.frozen t ht
    · rw [List.mem_singleton.mp ht]
      exact hfrozen
  lineage := by
    intro t ht
    have hmono (q : ScopeIds α) (hq : q ∈ p.scopes) :
        ∃ q' ∈ p.scopes ++ [s], q'.token = q.token ∧ q'.toFinset = q.toFinset :=
      ⟨q, List.mem_append_left _ hq, rfl, rfl⟩
    rcases List.mem_append.mp ht with ht | ht
    · exact (h.lineage t ht).mono hmono
    · rw [List.mem_singleton.mp ht]
      exact hlineage.mono hmono

/-- A `ScopeIds` on a known frozenset object has no parent and stands for the
object's ids. -/
theorem Refines.push_ofFrozenset (h : (⟨p, sets⟩ : Twin α).Refines) {f : Frozen α}
    (hf : p.frozensets[f.obj]? = some f.ids) :
    (⟨p.push (.ofFrozenset f p.nextToken), sets ++ [f.ids]⟩ : Twin α).Refines := by
  have hset : (ScopeIds.ofFrozenset f p.nextToken).toFinset = f.ids := Overlay.toFinset_ofBase f.ids
  have hpush := h.push (s := .ofFrozenset f p.nextToken) rfl hf
    (by rintro g ⟨⟩; exact hf) ⟨rfl, rfl⟩
  rwa [hset] at hpush

theorem Refines.freeze (h : (⟨p, sets⟩ : Twin α).Refines) (i : Nat) :
    (⟨p.freeze i, sets⟩ : Twin α).Refines := by
  obtain ⟨hsame, -⟩ | ⟨s, hs, hnone, hfreeze⟩ := p.freeze_cases i
  · rwa [hsame]
  obtain ⟨hi, hat⟩ := List.getElem?_eq_some_iff.mp hs
  have hmem : s ∈ p.scopes := List.mem_of_getElem? hs
  have halloc := h.alloc s.toFinset
  -- what is read off a set without its cache is the same in every place
  have hmap {β : Type} (f : ScopeIds α → β) (hf : f (s.fill p.frozensets.length) = f s) :
      (p.scopes.set i (s.fill p.frozensets.length)).map f = p.scopes.map f := by
    rw [List.map_set, hf, ← hat, ← List.getElem_map f (h := by rwa [List.length_map]),
      List.set_getElem_self]
  have hold {t : ScopeIds α} (ht : t ∈ p.scopes.set i (s.fill p.frozensets.length)) :
      t ∈ p.scopes ∨ t = s.fill p.frozensets.length := List.mem_or_eq_of_mem_set ht
  rw [hfreeze]
  exact
    { sets := (hmap _ (by rw [s.toOverlay_fill])).trans h.sets
      token_lt := by
        intro t ht
        rcases hold ht with ht | rfl
        · exact h.token_lt t ht
        · rw [s.token_fill]
          exact h.token_lt s hmem
      token_nodup := by
        show ((p.scopes.set i (s.fill p.frozensets.length)).map ScopeIds.token).Nodup
        rw [hmap _ (s.token_fill _)]
        exact h.token_nodup
      base := by
        intro t ht
        rcases hold ht with ht | rfl
        · exact halloc.base t ht
        · rw [s.baseObj_fill, s.toOverlay_fill]
          exact halloc.base s hmem
      frozen := by
        intro t ht f hf
        rcases hold ht with ht | rfl
        · exact halloc.frozen t ht f hf
        · have hnew := s.frozen_fill_of_none p.frozensets.length hnone
          rw [hnew] at hf
          cases hf
          exact alloc_last p _
      lineage := by
        -- the set of a token is in the list before and after, with or without its cache
        have hkept (q : ScopeIds α) (hq : q ∈ p.scopes) :
            ∃ q' ∈ p.scopes.set i (s.fill p.frozensets.length),
              q'.token = q.token ∧ q'.toFinset = q.toFinset := by
          have hview := hmap (fun t => (t.token, t.toFinset))
            (by rw [s.token_fill, s.toOverlay_fill])
          have hin := List.mem_map_of_mem (f := fun t : ScopeIds α => (t.token, t.toFinset)) hq
          rw [← hview] at hin
          obtain ⟨q', hq', heq⟩ := List.mem_map.mp hin
          exact ⟨q', hq', congrArg Prod.fst heq, congrArg Prod.snd heq⟩
        intro t ht
        rcases hold ht with ht | rfl
        · exact (h.lineage t ht).mono hkept
        · have hs := (h.lineage s hmem).mono hkept
          rw [ScopeIds.Lineage] at hs ⊢
          rw [s.parent_fill, s.added_fill, s.removed_fill, s.toOverlay_fill]
          exact hs }

theorem refines_derive (h : (⟨p, sets⟩ : Twin α).Refines) {parent : ScopeIds α}
    (hparent : parent ∈ p.scopes) (compactMin : Nat) {added removed : List α}
    (hdisjoint : Disjoint added.toFinset removed.toFinset) :
    (⟨p.derive compactMin parent added removed,
      sets ++ [(parent.toFinset ∪ added.toFinset) \ removed.toFinset]⟩ : Twin α).Refines := by
  have hset := ScopeIds.toFinset_derive compactMin p.frozensets.length p.nextToken parent added
    removed hdisjoint
  have hdiff := ScopeIds.differences_derive compactMin p.frozensets.length p.nextToken parent added
    removed
  have hoverlay := ScopeIds.overlay_derive compactMin p.frozensets.length p.nextToken parent added
    removed
  have htoken := ScopeIds.token_derive compactMin p.frozensets.length p.nextToken parent added
    removed
  have hfrozen := ScopeIds.frozen_derive compactMin p.frozensets.length p.nextToken parent added
    removed
  rw [Process.derive, ← hset]
  generalize hnew : ScopeIds.derive compactMin p.frozensets.length p.nextToken parent added removed
    = new at *
  have hlineage {scopes : List (ScopeIds α)} (hscopes : scopes = p.scopes) :
      new.Lineage scopes := by
    have hp : new.parent = some parent.token := by rw [← hnew, ScopeIds.parent_derive]
    rw [ScopeIds.Lineage, hp, hscopes]
    exact ⟨parent, hparent, rfl, hdiff.1, hdiff.2⟩
  have hknown {q : Process α} (hbase : q.frozensets[new.baseObj]? = some new.base) :
      ∀ f ∈ new.frozen, q.frozensets[f.obj]? = some f.ids := by
    intro f hf
    rw [hfrozen f hf]
    exact hbase
  split
  · -- the overlays were folded into a new object
    rename_i hobj
    have hbase : (p.alloc new.base).frozensets[new.baseObj]? = some new.base := by
      rw [hobj]
      exact alloc_last p _
    exact (h.alloc new.base).push htoken hbase (hknown hbase) (hlineage rfl)
  · rename_i hobj
    have hbase : p.frozensets[new.baseObj]? = some new.base := by
      obtain ⟨hsame, hat⟩ | ⟨-, hat⟩ := hoverlay
      · rw [hat, hsame]
        exact h.base parent hparent
      · exact absurd hat hobj
    exact h.push htoken hbase (hknown hbase) (hlineage rfl)

theorem Refines.step {w : Twin α} (h : w.Refines) {st : ScopeStep α} (hst : st.DisjointDelta) :
    (w.step st).Refines := by
  obtain ⟨p, sets⟩ := w
  have hget := h.getElem?
  rw [Twin.step]
  cases st with
  | frozenset ids =>
      simp only [Twin.made, Option.toList_none, List.append_nil]
      exact h.alloc _
  | frozen i =>
      simp only [Twin.made, Option.toList_none, List.append_nil]
      exact h.freeze i
  | ofFrozenset obj =>
      simp only [Twin.made, Process.step]
      cases hobj : p.frozensets[obj]? with
      | none => simpa using h
      | some ids => exact h.push_ofFrozenset (f := ⟨obj, ids⟩) hobj
  | ofIterable ids =>
      exact (h.alloc ids.toFinset).push_ofFrozenset (f := ⟨p.frozensets.length, ids.toFinset⟩)
        (alloc_last p _)
  | ofScope i =>
      have hfreeze := h.freeze i
      simp only [Twin.made, Process.step, hget i]
      cases hi : p.scopes[i]? with
      | none =>
          have hnone : (p.freeze i).frozenAt i = none := by
            rw [Process.freeze, hi, Process.frozenAt, hi]
            rfl
          rw [hnone]
          simpa using hfreeze
      | some s =>
          obtain ⟨f, hf, hset⟩ := Process.frozenAt_freeze hi
          obtain ⟨t, ht, htf⟩ := Option.bind_eq_some_iff.mp hf
          rw [hf, Option.map_some, ← hset]
          exact hfreeze.push_ofFrozenset (hfreeze.frozen t (List.mem_of_getElem? ht) f htf)
  | derive compactMin i added removed =>
      simp only [Twin.made, Process.step, hget i]
      cases hi : p.scopes[i]? with
      | none => simpa using h
      | some parent => exact refines_derive h (List.mem_of_getElem? hi) compactMin hst

theorem refines_run {steps : List (ScopeStep α)} (hsteps : ∀ st ∈ steps, st.DisjointDelta) :
    (run step steps empty).Refines :=
  (along_of_forall (P := fun st (_ : Twin α) => st.DisjointDelta)
    (fun st hst _ => hsteps st hst) empty).invariant (fun _ _ hs hst => hs.step hst) refines_empty

/-- Two sets of one token are one object; over one object they have one base. -/
theorem Refines.sameObjects {w : Twin α} (h : w.Refines) {s t : ScopeIds α}
    (hs : s ∈ w.process.scopes) (ht : t ∈ w.process.scopes) : s.SameObjects t where
  token := by
    intro htoken
    rw [List.inj_on_of_nodup_map h.token_nodup hs ht htoken]
  base := by
    intro hobj
    have hbase := h.base s hs
    rw [hobj, h.base t ht] at hbase
    exact (Option.some.inj hbase).symm

theorem Refines.pairs_eq {w : Twin α} (h : w.Refines) :
    w.pairs = w.process.scopes.map fun s => (s, s.toFinset) := by
  rw [pairs, ← h.sets, List.map_prod_left_eq_zip]

end Twin

/-- In every process each `ScopeIds` agrees with the plain set computed step
by step, its overlays fit its base, and what it recorded is the exact
difference from the one set that has its parent's token. -/
theorem scopeIds_refines (steps : List (ScopeStep α)) (hsteps : ∀ st ∈ steps, st.DisjointDelta) :
    let w := run Twin.step steps Twin.empty
    w.pairs.map Prod.fst = w.process.scopes ∧ w.pairs.map Prod.snd = w.sets ∧
      ∀ p ∈ w.pairs,
        p.1.Agrees w.pairs p.2 ∧ Disjoint p.1.plus p.1.base ∧ p.1.minus ⊆ p.1.base ∧
        (p.1.parent = none → p.1.added = ∅ ∧ p.1.removed = ∅) ∧
        ∀ token, p.1.parent = some token →
          ∃ q ∈ w.pairs, q.1.token = token ∧ (∀ q' ∈ w.pairs, q'.1.token = token → q' = q) ∧
            p.1.added = p.2 \ q.2 ∧ p.1.removed = q.2 \ p.2 := by
  intro w
  have h : w.Refines := Twin.refines_run hsteps
  have hpairs := h.pairs_eq
  have hmem {s : ScopeIds α} (hs : s ∈ w.process.scopes) : (s, s.toFinset) ∈ w.pairs := by
    rw [hpairs]
    exact List.mem_map_of_mem hs
  have hof {p : ScopeIds α × Finset α} (hp : p ∈ w.pairs) :
      p.1 ∈ w.process.scopes ∧ p = (p.1, p.1.toFinset) := by
    rw [hpairs] at hp
    obtain ⟨s, hs, rfl⟩ := List.mem_map.mp hp
    exact ⟨hs, rfl⟩
  have hfst : w.pairs.map Prod.fst = w.process.scopes := by
    rw [hpairs, List.map_map]
    exact List.map_id _
  have hsnd : w.pairs.map Prod.snd = w.sets := by
    rw [hpairs, List.map_map, ← h.sets]
    rfl
  refine ⟨hfst, hsnd, fun p hp => ?_⟩
  obtain ⟨hs, hset⟩ := hof hp
  obtain ⟨s, ids⟩ := p
  obtain rfl : ids = s.toFinset := congrArg Prod.snd hset
  have hlineage := h.lineage s hs
  rw [ScopeIds.Lineage] at hlineage
  refine ⟨?_, s.plus_disjoint, s.minus_subset, fun hnone => ?_, fun token hparent => ?_⟩
  · exact ScopeIds.agrees_of (fun q hq => (congrArg Prod.snd (hof hq).2).symm)
      fun q hq => h.sameObjects hs (hof hq).1
  · rwa [show s.parent = none from hnone] at hlineage
  · rw [show s.parent = some token from hparent] at hlineage
    obtain ⟨q, hq, htoken, hadded, hremoved⟩ := hlineage
    refine ⟨(q, q.toFinset), hmem hq, htoken, fun q' hq' htoken' => ?_, hadded, hremoved⟩
    -- tokens are handed out once
    have hsame : q'.1 = q :=
      List.inj_on_of_nodup_map h.token_nodup (hof hq').1 hq (htoken'.trans htoken.symm)
    rw [(hof hq').2, hsame]

/-- A chain with an id added back, an absent id removed, a fold and a copy. -/
def chainSteps : List (ScopeStep String) :=
  [.ofIterable ["a", "b", "c"], .derive 4096 0 ["a", "d"] ["b", "x"], .derive 4096 1 ["b"] ["d"],
    .derive 1 1 ["e"] ["c"], .ofScope 2, .derive 4096 4 [] ["a"]]

theorem scopeIds_refines_chain :
    let w := run Twin.step chainSteps Twin.empty
    w.sets = [{"a", "b", "c"}, {"a", "c", "d"}, {"a", "b", "c"}, {"a", "d", "e"}, {"a", "b", "c"},
        {"b", "c"}] ∧
      (∀ p ∈ w.pairs, p.1.Agrees w.pairs p.2) ∧
      w.process.scopes.map (fun s => (s.baseObj, s.plus, s.minus)) =
        [(0, ∅, ∅), (0, {"d"}, {"b"}), (0, ∅, ∅), (1, ∅, ∅), (0, ∅, ∅), (0, ∅, {"a"})] := by
  have hsteps : ∀ st ∈ chainSteps, st.DisjointDelta := by decide
  refine ⟨by decide +kernel, ?_, by decide +kernel⟩
  exact fun p hp => ((scopeIds_refines chainSteps hsteps).2.2 p hp).1

end MarkSdk
