import Mathlib.Data.List.Nodup
import Mathlib.Data.List.Induction
import Mathlib.Data.List.InsertIdx
import Mathlib.Data.List.Perm.Basic
import Mathlib.Order.Lattice

/-!
Reordering a list one pair at a time: the first of a pair is moved directly
ahead of the second, if it stands behind it.

A move may take an element past others that belong ahead of it. All pairs come
out in order exactly when each such pass is undone later on
(`rearrange_ordered_iff`). Where the elements take turns, and each moves ahead
of those that it covers, who stands ahead of whom in the end follows from what
covers what alone (`Turned.all`). Where it moves all those ahead of itself, it
does as long as it can get ahead of two of them only where it settles their
order too (`passesUndone_of_getsAhead`).
-/

namespace MarkSdk.Lib

variable {ι : Type} [DecidableEq ι]

/-- The first of the pair is taken out, and put back where the second is. -/
def moveAhead (order : List ι) (p : ι × ι) : List ι :=
  if order.idxOf p.2 < order.idxOf p.1 then
    (order.erase p.1).insertIdx ((order.erase p.1).idxOf p.2) p.1
  else order

def rearrange (order : List ι) (pairs : List (ι × ι)) : List ι :=
  pairs.foldl moveAhead order

/-- The place of `a` is before that of `b`. -/
def Ahead (order : List ι) (a b : ι) : Prop := order.idxOf a < order.idxOf b

instance (order : List ι) (a b : ι) : Decidable (Ahead order a b) :=
  inferInstanceAs (Decidable (_ < _))

/-- The move of this pair takes `a` past `b`. -/
def Passes (order : List ι) (p : ι × ι) (a b : ι) : Prop :=
  a = p.1 ∧ order.idxOf p.2 ≤ order.idxOf b ∧ order.idxOf b < order.idxOf a

/-- Some move takes `a` past `b`. -/
def Passed : List ι → List (ι × ι) → ι → ι → Prop
  | _, [], _, _ => False
  | order, p :: pairs, a, b => Passes order p a b ∨ Passed (moveAhead order p) pairs a b

/-- Whatever is moved past an element that belongs ahead of it is passed by that
element in a later move. -/
def PassesUndone (belongs : ι → ι → Prop) : List ι → List (ι × ι) → Prop
  | _, [] => True
  | order, p :: pairs =>
      (∀ a, belongs a p.1 → Passes order p p.1 a → Passed (moveAhead order p) pairs a p.1) ∧
        PassesUndone belongs (moveAhead order p) pairs

variable {order : List ι} {p : ι × ι} {pairs : List (ι × ι)} {a b : ι}

theorem idxOf_eq_of_getElem? {i : Nat} (hnodup : order.Nodup) (h : order[i]? = some a) :
    order.idxOf a = i := by
  obtain ⟨hi, rfl⟩ := List.getElem?_eq_some_iff.mp h
  exact hnodup.idxOf_getElem i hi

theorem getElem?_idxOf' (h : a ∈ order) : order[order.idxOf a]? = some a :=
  List.getElem?_eq_some_iff.mpr ⟨List.idxOf_lt_length_of_mem h, List.getElem_idxOf _⟩

/-! ### One move -/

theorem moveAhead_perm (order : List ι) (p : ι × ι) (hfirst : p.1 ∈ order) :
    (moveAhead order p).Perm order := by
  rw [moveAhead]
  split
  case isTrue hbehind =>
    have hplace : (order.erase p.1).idxOf p.2 ≤ (order.erase p.1).length := List.idxOf_le_length
    exact (List.perm_insertIdx _ _ hplace).trans (List.perm_cons_erase hfirst).symm
  case isFalse => exact List.Perm.refl _

/-- Where an element is after a move: what was passed has gone back by one. -/
theorem idxOf_moveAhead (hnodup : order.Nodup) (hfirst : p.1 ∈ order) (ha : a ∈ order)
    (hbehind : order.idxOf p.2 < order.idxOf p.1) :
    (moveAhead order p).idxOf a =
      if a = p.1 then order.idxOf p.2
      else if order.idxOf p.2 ≤ order.idxOf a ∧ order.idxOf a < order.idxOf p.1 then
        order.idxOf a + 1
      else order.idxOf a := by
  have hlt := List.idxOf_lt_length_of_mem hfirst
  have hsecond : p.2 ∈ order := List.idxOf_lt_length_iff.mp (Nat.lt_trans hbehind hlt)
  have herase : order.erase p.1 = order.eraseIdx (order.idxOf p.1) :=
    List.erase_eq_eraseIdx_of_idxOf rfl
  have hplace : (order.erase p.1).idxOf p.2 = order.idxOf p.2 := by
    apply idxOf_eq_of_getElem? (hnodup.erase _)
    rw [herase, List.getElem?_eraseIdx, if_pos hbehind, getElem?_idxOf' hsecond]
  have hlength : (order.erase p.1).length + 1 = order.length := by
    rw [List.length_erase_of_mem hfirst]
    omega
  have hmoved : moveAhead order p =
      (order.eraseIdx (order.idxOf p.1)).insertIdx (order.idxOf p.2) p.1 := by
    rw [moveAhead, if_pos hbehind, hplace, herase]
  have hnodup' : (moveAhead order p).Nodup :=
    (moveAhead_perm order p hfirst).nodup_iff.mpr hnodup
  apply idxOf_eq_of_getElem? hnodup'
  rw [hmoved, List.getElem?_insertIdx]
  rw [herase] at hlength
  have hin := getElem?_idxOf' ha
  by_cases hself : a = p.1
  · subst hself
    rw [if_pos rfl, if_neg (Nat.lt_irrefl _), if_pos rfl, if_pos (by omega)]
  · have hne : order.idxOf a ≠ order.idxOf p.1 := fun heq =>
      hself ((List.idxOf_inj ha).mp heq)
    rw [if_neg hself]
    split
    case isTrue hpassed =>
      rw [if_neg (by omega), if_neg (by omega), List.getElem?_eraseIdx, if_pos (by omega)]
      exact hin
    case isFalse hfree =>
      by_cases hbefore : order.idxOf a < order.idxOf p.2
      · rw [if_pos hbefore, List.getElem?_eraseIdx, if_pos (by omega)]
        exact hin
      · rw [if_neg hbefore, if_neg (by omega), List.getElem?_eraseIdx, if_neg (by omega)]
        have hback : order.idxOf a - 1 + 1 = order.idxOf a := by omega
        rw [hback]
        exact hin

/-- A move changes the order of two elements just by taking one past the other. -/
theorem ahead_moveAhead_iff (hnodup : order.Nodup) (hfirst : p.1 ∈ order) (ha : a ∈ order)
    (hb : b ∈ order) :
    Ahead (moveAhead order p) a b ↔
      Ahead order a b ∧ ¬ Passes order p b a ∨ Passes order p a b := by
  by_cases hbehind : order.idxOf p.2 < order.idxOf p.1
  · have hinj : ∀ x ∈ order, ∀ y ∈ order, order.idxOf x = order.idxOf y → x = y :=
      fun x hx y _ h => (List.idxOf_inj hx).mp h
    rw [Ahead, idxOf_moveAhead hnodup hfirst ha hbehind, idxOf_moveAhead hnodup hfirst hb hbehind,
      Ahead, Passes, Passes]
    by_cases ha' : a = p.1
    · subst ha'
      by_cases hb' : b = p.1
      · subst hb'
        simp
      · have hne := mt (hinj b hb p.1 hfirst) hb'
        simp only [hb', if_true, if_false, true_and, false_and, not_false_iff, and_true]
        split <;> omega
    · have hne := mt (hinj a ha p.1 hfirst) ha'
      by_cases hb' : b = p.1
      · subst hb'
        simp only [ha', if_true, if_false, true_and, false_and, or_false]
        split <;> omega
      · have hne' := mt (hinj b hb p.1 hfirst) hb'
        simp only [ha', hb', if_false, false_and, not_false_iff, and_true, or_false]
        split <;> split <;> omega
  · have hsame : moveAhead order p = order := if_neg hbehind
    rw [hsame, Passes, Passes]
    constructor
    · intro h
      refine .inl ⟨h, ?_⟩
      rintro ⟨rfl, hle, hlt⟩
      omega
    · rintro (⟨h, -⟩ | ⟨rfl, hle, hlt⟩)
      · exact h
      · omega

theorem Passes.ahead (h : Passes order p a b) : Ahead order b a := h.2.2

/-- A move settles its own pair. -/
theorem ahead_of_moveAhead (hnodup : order.Nodup) (hfirst : p.1 ∈ order) (hsecond : p.2 ∈ order)
    (hne : p.1 ≠ p.2) : Ahead (moveAhead order p) p.1 p.2 := by
  rw [ahead_moveAhead_iff hnodup hfirst hfirst hsecond]
  have hplace : order.idxOf p.1 ≠ order.idxOf p.2 := fun heq =>
    hne ((List.idxOf_inj hfirst).mp heq)
  by_cases hbehind : order.idxOf p.2 < order.idxOf p.1
  · exact .inr ⟨rfl, Nat.le_refl _, hbehind⟩
  · refine .inl ⟨?_, fun h => hne h.1.symm⟩
    show order.idxOf p.1 < order.idxOf p.2
    omega

/-! ### All moves -/

theorem rearrange_perm (order : List ι) (pairs : List (ι × ι)) (hfirst : ∀ p ∈ pairs, p.1 ∈ order) :
    (rearrange order pairs).Perm order := by
  induction pairs generalizing order with
  | nil => exact List.Perm.refl _
  | cons p pairs ih =>
      have hstep := moveAhead_perm order p (hfirst p List.mem_cons_self)
      refine (ih (moveAhead order p) fun q hq => ?_).trans hstep
      exact hstep.mem_iff.mpr (hfirst q (List.mem_cons_of_mem _ hq))

/-- Two elements whose order is turned around have passed one another. -/
theorem passed_of_turned (hnodup : order.Nodup) (hfirst : ∀ p ∈ pairs, p.1 ∈ order)
    (ha : a ∈ order) (hb : b ∈ order) (hbefore : Ahead order b a)
    (hafter : Ahead (rearrange order pairs) a b) : Passed order pairs a b := by
  induction pairs generalizing order with
  | nil => exact absurd hbefore (Nat.lt_asymm hafter)
  | cons p pairs ih =>
      obtain ⟨hp, hrest⟩ := List.forall_mem_cons.mp hfirst
      have hperm := moveAhead_perm order p hp
      by_cases hpass : Passes order p a b
      · exact .inl hpass
      · refine .inr (ih (hperm.nodup_iff.mpr hnodup) (fun q hq => hperm.mem_iff.mpr (hrest q hq))
          (hperm.mem_iff.mpr ha) (hperm.mem_iff.mpr hb) ?_ hafter)
        exact (ahead_moveAhead_iff hnodup hp hb ha).mpr (.inl ⟨hbefore, hpass⟩)

section Undone

variable {belongs : ι → ι → Prop}

/-- Where passes are undone, what stands in order stays so, and what is undone
ends in order. -/
theorem PassesUndone.ahead (h : PassesUndone belongs order pairs) (hnodup : order.Nodup)
    (hfirst : ∀ p ∈ pairs, p.1 ∈ order) (ha : a ∈ order) (hb : b ∈ order) (hab : belongs a b)
    (hnow : Ahead order a b ∨ Passed order pairs a b) : Ahead (rearrange order pairs) a b := by
  induction pairs generalizing order with
  | nil => exact hnow.resolve_right id
  | cons p pairs ih =>
      obtain ⟨hundone, hlater⟩ := h
      obtain ⟨hp, hrest⟩ := List.forall_mem_cons.mp hfirst
      have hperm := moveAhead_perm order p hp
      refine ih hlater (hperm.nodup_iff.mpr hnodup) (fun q hq => hperm.mem_iff.mpr (hrest q hq))
        (hperm.mem_iff.mpr ha) (hperm.mem_iff.mpr hb) ?_
      rcases hnow with hahead | hpass | hpassed
      · by_cases hback : Passes order p b a
        · obtain rfl := hback.1
          exact .inr (hundone a hab hback)
        · exact .inl ((ahead_moveAhead_iff hnodup hp ha hb).mpr (.inl ⟨hahead, hback⟩))
      · exact .inl ((ahead_moveAhead_iff hnodup hp ha hb).mpr (.inr hpass))
      · exact .inr hpassed

theorem PassesUndone.ordered (h : PassesUndone belongs order pairs) (hnodup : order.Nodup)
    (hpairs : ∀ p ∈ pairs, p.1 ∈ order ∧ p.2 ∈ order ∧ p.1 ≠ p.2 ∧ belongs p.1 p.2) :
    ∀ p ∈ pairs, Ahead (rearrange order pairs) p.1 p.2 := by
  induction pairs generalizing order with
  | nil => exact fun p hp => absurd hp List.not_mem_nil
  | cons p pairs ih =>
      obtain ⟨⟨hfirst, hsecond, hne, hbelongs⟩, hrest⟩ := List.forall_mem_cons.mp hpairs
      have hperm := moveAhead_perm order p hfirst
      have hnodup' := hperm.nodup_iff.mpr hnodup
      have hrest' : ∀ q ∈ pairs, q.1 ∈ moveAhead order p ∧ q.2 ∈ moveAhead order p ∧
          q.1 ≠ q.2 ∧ belongs q.1 q.2 := fun q hq => by
        obtain ⟨h1, h2, h3⟩ := hrest q hq
        exact ⟨hperm.mem_iff.mpr h1, hperm.mem_iff.mpr h2, h3⟩
      refine List.forall_mem_cons.mpr ⟨?_, ih h.2 hnodup' hrest'⟩
      exact h.2.ahead hnodup' (fun q hq => (hrest' q hq).1) (hperm.mem_iff.mpr hfirst)
        (hperm.mem_iff.mpr hsecond) hbelongs
        (.inl (ahead_of_moveAhead hnodup hfirst hsecond hne))

theorem passesUndone_of_ordered (hnodup : order.Nodup) (hfirst : ∀ p ∈ pairs, p.1 ∈ order)
    (hbelongs : ∀ a b, belongs a b → a ∈ order)
    (hordered : ∀ a b, belongs a b → Ahead (rearrange order pairs) a b) :
    PassesUndone belongs order pairs := by
  induction pairs generalizing order with
  | nil => trivial
  | cons p pairs ih =>
      obtain ⟨hp, hrest⟩ := List.forall_mem_cons.mp hfirst
      have hperm := moveAhead_perm order p hp
      have hnodup' := hperm.nodup_iff.mpr hnodup
      have hrest' : ∀ q ∈ pairs, q.1 ∈ moveAhead order p := fun q hq =>
        hperm.mem_iff.mpr (hrest q hq)
      refine ⟨fun a ha hpass => ?_, ih hnodup' hrest'
        (fun a b h => hperm.mem_iff.mpr (hbelongs a b h)) hordered⟩
      have hin := hbelongs a p.1 ha
      refine passed_of_turned hnodup' hrest' (hperm.mem_iff.mpr hin) (hperm.mem_iff.mpr hp) ?_
        (hordered a p.1 ha)
      exact (ahead_moveAhead_iff hnodup hp hp hin).mpr (.inr hpass)

end Undone

/-- All pairs come out in order exactly when every pass over an element that
belongs ahead is undone. -/
theorem rearrange_ordered_iff (hnodup : order.Nodup)
    (hpairs : ∀ p ∈ pairs, p.1 ∈ order ∧ p.2 ∈ order ∧ p.1 ≠ p.2) :
    (∀ p ∈ pairs, Ahead (rearrange order pairs) p.1 p.2) ↔
      PassesUndone (fun a b => (a, b) ∈ pairs) order pairs := by
  constructor
  · intro h
    exact passesUndone_of_ordered hnodup (fun p hp => (hpairs p hp).1)
      (fun a b hab => (hpairs (a, b) hab).1) fun a b hab => h (a, b) hab
  · intro h
    refine h.ordered hnodup fun p hp => ?_
    obtain ⟨hfirst, hsecond, hne⟩ := hpairs p hp
    exact ⟨hfirst, hsecond, hne, hp⟩

/-- It is enough to look at the order before each move. -/
theorem passesUndone_of_splits {belongs : ι → ι → Prop}
    (h : ∀ done p rest, pairs = done ++ p :: rest → ∀ a, belongs a p.1 →
      Passes (rearrange order done) p p.1 a →
        Passed (moveAhead (rearrange order done) p) rest a p.1) :
    PassesUndone belongs order pairs := by
  induction pairs generalizing order with
  | nil => trivial
  | cons p pairs ih =>
      refine ⟨h [] p pairs rfl, ih fun done q rest hsplit => ?_⟩
      exact h (p :: done) q rest (by rw [hsplit, List.cons_append])

theorem Passed.append (h : Passed order pairs a b) (more : List (ι × ι)) :
    Passed order (pairs ++ more) a b := by
  induction pairs generalizing order with
  | nil => exact h.elim
  | cons p pairs ih => exact h.imp_right ih

theorem rearrange_append (order : List ι) (pairs more : List (ι × ι)) :
    rearrange order (pairs ++ more) = rearrange (rearrange order pairs) more :=
  List.foldl_append

/-- Moves of others take nothing past an element. -/
theorem ahead_rearrange_of_ne (hnodup : order.Nodup) (hfirst : ∀ p ∈ pairs, p.1 ∈ order)
    (hne : ∀ p ∈ pairs, p.1 ≠ b) (ha : a ∈ order) (hb : b ∈ order) (h : Ahead order a b) :
    Ahead (rearrange order pairs) a b := by
  induction pairs generalizing order with
  | nil => exact h
  | cons p pairs ih =>
      obtain ⟨hp, hrest⟩ := List.forall_mem_cons.mp hfirst
      obtain ⟨hpne, hne⟩ := List.forall_mem_cons.mp hne
      have hperm := moveAhead_perm order p hp
      refine ih (hperm.nodup_iff.mpr hnodup) (fun q hq => hperm.mem_iff.mpr (hrest q hq)) hne
        (hperm.mem_iff.mpr ha) (hperm.mem_iff.mpr hb) ?_
      exact (ahead_moveAhead_iff hnodup hp ha hb).mpr (.inl ⟨h, fun hpass => hpne hpass.1.symm⟩)

theorem not_ahead_iff (ha : a ∈ order) (hne : a ≠ b) : ¬ Ahead order a b ↔ Ahead order b a := by
  have hplace : order.idxOf a ≠ order.idxOf b := fun h => hne ((List.idxOf_inj ha).mp h)
  rw [Ahead, Ahead]
  omega

theorem mem_rearrange (hall : ∀ x, x ∈ order) (pairs : List (ι × ι)) (a : ι) :
    a ∈ rearrange order pairs :=
  (rearrange_perm order pairs fun p _ => hall p.1).mem_iff.mpr (hall a)

theorem nodup_rearrange (hnodup : order.Nodup) (hall : ∀ x, x ∈ order) (pairs : List (ι × ι)) :
    (rearrange order pairs).Nodup :=
  (rearrange_perm order pairs fun p _ => hall p.1).nodup_iff.mpr hnodup

/-- In its turn an element moves ahead of all that it covers, and nothing else
moves. -/
theorem ahead_turn {is : List ι} {j : ι} (hnodup : order.Nodup) (hj : j ∈ order) (his : ∀ i ∈ is, i ∈ order ∧ i ≠ j) :
    (∀ a ∈ order, ∀ b ∈ order, a ≠ j → b ≠ j →
      (Ahead (rearrange order (is.map (j, ·))) a b ↔ Ahead order a b)) ∧
    ∀ b ∈ order, b ≠ j → (Ahead (rearrange order (is.map (j, ·))) j b ↔
      Ahead order j b ∨ ∃ i ∈ is, i = b ∨ Ahead order i b) := by
  induction is generalizing order with
  | nil => exact ⟨fun a _ b _ _ _ => Iff.rfl, fun b _ _ => by simp [rearrange]⟩
  | cons i is ih =>
      obtain ⟨⟨hi, hij⟩, hrest⟩ := List.forall_mem_cons.mp his
      have hperm := moveAhead_perm order (j, i) hj
      have hothers : ∀ a ∈ order, ∀ b ∈ order, a ≠ j → b ≠ j →
          (Ahead (moveAhead order (j, i)) a b ↔ Ahead order a b) := by
        intro a ha b hb haj hbj
        rw [ahead_moveAhead_iff hnodup hj ha hb]
        constructor
        · rintro (⟨h, -⟩ | h)
          · exact h
          · exact absurd h.1 haj
        · exact fun h => .inl ⟨h, fun hpass => hbj hpass.1⟩
      have hown : ∀ b ∈ order, b ≠ j →
          (Ahead (moveAhead order (j, i)) j b ↔ Ahead order j b ∨ i = b ∨ Ahead order i b) := by
        intro b hb hbj
        rw [ahead_moveAhead_iff hnodup hj hj hb]
        have hplace : order.idxOf b ≠ order.idxOf j := fun h => hbj ((List.idxOf_inj hb).mp h)
        have hsame : i = b ↔ order.idxOf i = order.idxOf b := (List.idxOf_inj hi).symm
        rw [hsame]
        simp only [Ahead, Passes, hbj, false_and, not_false_iff, and_true, true_and]
        omega
      obtain ⟨hothers', hown'⟩ := ih (hperm.nodup_iff.mpr hnodup) (hperm.mem_iff.mpr hj)
        fun i' hi' => ⟨hperm.mem_iff.mpr (hrest i' hi').1, (hrest i' hi').2⟩
      refine ⟨fun a ha b hb haj hbj => ?_, fun b hb hbj => ?_⟩
      · exact (hothers' a (hperm.mem_iff.mpr ha) b (hperm.mem_iff.mpr hb) haj hbj).trans
          (hothers a ha b hb haj hbj)
      · refine (hown' b (hperm.mem_iff.mpr hb) hbj).trans ?_
        rw [hown b hb hbj, List.exists_mem_cons_iff, or_assoc]
        refine or_congr_right (or_congr_right (exists_congr fun i' => and_congr_right fun hi' => ?_))
        obtain ⟨hin, hne⟩ := hrest i' hi'
        rw [hothers i' hin b hb hne hbj]

/-! ### Turns -/

section Turns

variable [LinearOrder ι] (covers : ι → ι → Prop)

/-- Who stands ahead in the end: each ahead of what it covers and of what is
behind that; and one of before, if it stands ahead of all that is covered. -/
inductive StandsAhead : ι → ι → Prop
  | directly {a b : ι} : a < b → covers b a → StandsAhead b a
  | past {a b m : ι} : a < b → m < b → covers b m → StandsAhead m a → StandsAhead b a
  | kept {a b : ι} : a < b → (∀ m, m < b → covers b m → StandsAhead a m) → StandsAhead a b

variable {covers} {j : ι}

omit [DecidableEq ι] in
theorem StandsAhead.ne (h : StandsAhead covers a b) : a ≠ b := by
  cases h with
  | directly hlt _ => exact ne_of_gt hlt
  | past hlt _ _ _ => exact ne_of_gt hlt
  | kept hlt _ => exact ne_of_lt hlt

omit [DecidableEq ι] in
theorem standsAhead_iff_of_gt (hlt : b < a) : StandsAhead covers a b ↔
    ∃ m, m < a ∧ covers a m ∧ (m = b ∨ StandsAhead covers m b) := by
  constructor
  · intro h
    cases h with
    | directly _ hcovers => exact ⟨b, hlt, hcovers, .inl rfl⟩
    | past _ hm hcovers hahead => exact ⟨_, hm, hcovers, .inr hahead⟩
    | kept hgt _ => exact absurd (hlt.trans hgt) (lt_irrefl _)
  · rintro ⟨m, hm, hcovers, rfl | hahead⟩
    · exact .directly hlt hcovers
    · exact .past hlt hm hcovers hahead

omit [DecidableEq ι] in
theorem standsAhead_iff_of_lt (hlt : a < b) : StandsAhead covers a b ↔
    ∀ m, m < b → covers b m → StandsAhead covers a m := by
  constructor
  · intro h
    cases h with
    | directly hgt _ => exact absurd (hlt.trans hgt) (lt_irrefl _)
    | past hgt _ _ _ => exact absurd (hlt.trans hgt) (lt_irrefl _)
    | kept _ hall => exact hall
  · exact .kept hlt

/-- The elements of `done` have had their turns. -/
structure Turned (covers : ι → ι → Prop) (l done order : List ι) : Prop where
  perm : order.Perm l
  settled : ∀ a ∈ done, ∀ b ∈ done, a ≠ b → (Ahead order a b ↔ StandsAhead covers a b)
  waiting : ∀ a b, a < b → b ∉ done → Ahead order a b

/-- The moves of one turn. -/
def turnOf (covers : ι → ι → Prop) [DecidableRel covers] (l : List ι) (j : ι) : List (ι × ι) :=
  (l.filter fun i => i ≠ j ∧ covers j i).map (j, ·)

variable {l done todo : List ι}

theorem ahead_of_sorted (hl : l.Pairwise (· < ·)) (ha : a ∈ l) (hb : b ∈ l) :
    Ahead l a b ↔ a < b := by
  have hlt := List.idxOf_lt_length_of_mem ha
  have hlt' := List.idxOf_lt_length_of_mem hb
  have hmono := List.pairwise_iff_getElem.mp hl
  have hget := List.getElem_idxOf hlt
  have hget' := List.getElem_idxOf hlt'
  constructor
  · intro h
    have hless := hmono _ _ hlt hlt' h
    rwa [hget, hget'] at hless
  · intro h
    refine Nat.lt_of_not_le fun hle => ?_
    rcases Nat.eq_or_lt_of_le hle with heq | hback
    · exact absurd ((List.idxOf_inj hb).mp heq) (ne_of_gt h)
    · have hless := hmono _ _ hlt' hlt hback
      rw [hget, hget'] at hless
      exact absurd (h.trans hless) (lt_irrefl _)

section Sorted

variable (hl : l.Pairwise (· < ·)) (hall : ∀ x, x ∈ l)
include hl hall

omit [DecidableEq ι] in
theorem before_turn (hsplit : l = done ++ j :: todo) (a : ι) : a ∈ done ↔ a < j := by
  rw [hsplit] at hl
  obtain ⟨-, htodo, hdone⟩ := List.pairwise_append.mp hl
  constructor
  · exact fun ha => hdone a ha j List.mem_cons_self
  · intro hlt
    have ha := hall a
    rw [hsplit] at ha
    refine (List.mem_append.mp ha).resolve_right fun hrest => ?_
    rcases List.mem_cons.mp hrest with rfl | hrest
    · exact lt_irrefl _ hlt
    · exact lt_irrefl _ (hlt.trans ((List.pairwise_cons.mp htodo).1 a hrest))

/-- Who stands ahead after a turn. -/
theorem Turned.moved [DecidableRel covers] (h : Turned covers l done order) (j : ι) :
    (∀ a b, a ≠ j → b ≠ j →
      (Ahead (rearrange order (turnOf covers l j)) a b ↔ Ahead order a b)) ∧
    ∀ b, b ≠ j → (Ahead (rearrange order (turnOf covers l j)) j b ↔
      Ahead order j b ∨ ∃ i, (i ≠ j ∧ covers j i) ∧ (i = b ∨ Ahead order i b)) := by
  have hnodup : order.Nodup := h.perm.nodup_iff.mpr (hl.imp fun h => ne_of_lt h)
  have hin : ∀ a, a ∈ order := fun a => h.perm.mem_iff.mpr (hall a)
  have hmoves : ∀ i, i ∈ (l.filter fun i => i ≠ j ∧ covers j i) ↔ i ≠ j ∧ covers j i := fun i => by
    rw [List.mem_filter, decide_eq_true_iff]
    exact and_iff_right (hall i)
  obtain ⟨hothers, hown⟩ := ahead_turn hnodup (hin j) fun i hi => ⟨hin i, ((hmoves i).mp hi).1⟩
  refine ⟨fun a b haj hbj => hothers a (hin a) b (hin b) haj hbj, fun b hbj => ?_⟩
  refine (hown b (hin b) hbj).trans (or_congr_right (exists_congr fun i => ?_))
  exact and_congr_left fun _ => hmoves i

/-- The turn takes `j` past an earlier one if `j` covers it, or one that is
ahead of it. -/
theorem Turned.past [DecidableRel covers] (hsplit : l = done ++ j :: todo)
    (h : Turned covers l done order) (hlt : a < j) :
    Ahead (rearrange order (turnOf covers l j)) j a ↔
      ∃ m, m < j ∧ covers j m ∧ (m = a ∨ Ahead order m a) := by
  have hdone := before_turn hl hall hsplit
  have hnow : ¬ Ahead order j a :=
    Nat.lt_asymm (h.waiting a j hlt fun hj => lt_irrefl j ((hdone j).mp hj))
  rw [(h.moved hl hall j).2 a (ne_of_lt hlt)]
  constructor
  · rintro (hj | ⟨i, ⟨hne, hcovers⟩, hia⟩)
    · exact absurd hj hnow
    · refine ⟨i, lt_of_le_of_ne (not_lt.mp fun hgt => ?_) hne, hcovers, hia⟩
      -- what comes later is not yet ahead of anything before
      have hlater := h.waiting a i (hlt.trans hgt) fun hi =>
        lt_irrefl _ (hgt.trans ((hdone i).mp hi))
      rcases hia with rfl | hia
      · exact lt_irrefl _ (hlt.trans hgt)
      · exact Nat.lt_asymm hia hlater
  · rintro ⟨m, hm, hcovers, hma⟩
    exact .inr ⟨m, ⟨ne_of_lt hm, hcovers⟩, hma⟩

theorem Turned.turn [DecidableRel covers] (hsplit : l = done ++ j :: todo)
    (h : Turned covers l done order) :
    Turned covers l (done ++ [j]) (rearrange order (turnOf covers l j)) := by
  have hin : ∀ a, a ∈ order := fun a => h.perm.mem_iff.mpr (hall a)
  have hdone := before_turn hl hall hsplit
  have hperm : (rearrange order (turnOf covers l j)).Perm order :=
    rearrange_perm _ _ fun p _ => hin p.1
  have hpast : ∀ a, a < j → _ := fun a hlt => h.past hl hall hsplit hlt
  obtain ⟨hothers, hown⟩ := h.moved hl hall j
  generalize rearrange order (turnOf covers l j) = order' at hothers hown hpast hperm ⊢
  refine ⟨hperm.trans h.perm, fun a ha b hb hne => ?_, fun a b hlt hnot => ?_⟩
  · rcases List.mem_append.mp ha with had | had <;> rcases List.mem_append.mp hb with hbd | hbd
    · have haj := ne_of_lt ((hdone a).mp had)
      have hbj := ne_of_lt ((hdone b).mp hbd)
      exact (hothers a b haj hbj).trans (h.settled a had b hbd hne)
    · obtain rfl := List.mem_singleton.mp hbd
      have hlt := (hdone a).mp had
      rw [standsAhead_iff_of_lt hlt, ← not_ahead_iff (hperm.mem_iff.mpr (hin b)) hne.symm,
        hpast a hlt]
      simp only [not_exists, not_and, not_or]
      refine forall_congr' fun m => imp_congr_right fun hm => imp_congr_right fun _ => ?_
      have hmd := (hdone m).mpr hm
      constructor
      · rintro ⟨hma, hnot⟩
        exact (h.settled a had m hmd (Ne.symm hma)).mp ((not_ahead_iff (hin m) hma).mp hnot)
      · intro hstands
        have hahead := (h.settled a had m hmd hstands.ne).mpr hstands
        exact ⟨hstands.ne.symm, Nat.lt_asymm hahead⟩
    · obtain rfl := List.mem_singleton.mp had
      have hlt := (hdone b).mp hbd
      rw [standsAhead_iff_of_gt hlt, hpast b hlt]
      refine exists_congr fun m => and_congr_right fun hm => and_congr_right fun _ => ?_
      by_cases hmb : m = b
      · exact iff_of_true (.inl hmb) (.inl hmb)
      · exact or_congr_right (h.settled m ((hdone m).mpr hm) b hbd hmb)
    · exact absurd ((List.mem_singleton.mp had).trans (List.mem_singleton.mp hbd).symm) hne
  · obtain ⟨hb, hbj⟩ : b ∉ done ∧ b ≠ j := by simpa using hnot
    have hnow := h.waiting a b hlt hb
    by_cases haj : a = j
    · subst haj
      exact (hown b hbj).mpr (.inl hnow)
    · exact (hothers a b haj hbj).mpr hnow

theorem Turned.turns [DecidableRel covers] (hsplit : l = done ++ todo)
    (h : Turned covers l done order) :
    Turned covers l l (rearrange order (todo.flatMap (turnOf covers l))) := by
  induction todo generalizing done order with
  | nil =>
      rw [List.append_nil] at hsplit
      exact hsplit ▸ h
  | cons j todo ih =>
      rw [List.flatMap_cons, rearrange_append]
      exact ih (by rw [hsplit, List.append_assoc, List.singleton_append])
        (h.turn hl hall hsplit)

/-- After all turns each stands ahead of what it should, by what covers what. -/
theorem Turned.all [DecidableRel covers] (hne : a ≠ b) :
    Ahead (rearrange l (l.flatMap (turnOf covers l))) a b ↔ StandsAhead covers a b := by
  have hstart : Turned covers l [] l :=
    ⟨List.Perm.refl l, fun a ha => absurd ha List.not_mem_nil,
      fun a b hlt _ => (ahead_of_sorted hl (hall a) (hall b)).mpr hlt⟩
  exact (hstart.turns hl hall (List.nil_append l).symm).settled a (hall a) b (hall b) hne

end Sorted

/-! ### Turns in which the covered move -/

/-- An element may get ahead of another: by where it stands, or because it is
taken ahead by one that covers it and may itself be there, and that does not
take the other along. -/
inductive GetsAhead (covers : ι → ι → Prop) : ι → ι → Prop
  | stands {a b : ι} : a < b → GetsAhead covers a b
  | own {a b : ι} : b < a → covers b a → GetsAhead covers a b
  | taken {a b m : ι} : m < a → covers m a → ¬ covers m b → GetsAhead covers m b →
      GetsAhead covers a b

/-- The moves of every turn are made before those of the next, and each turn
moves the elements in their order. -/
structure Behind (covers : ι → ι → Prop) (pairs : List (ι × ι)) : Prop where
  sorted : pairs.Pairwise fun p q => p.2 < q.2 ∨ p.2 = q.2 ∧ p.1 < q.1
  mem_iff : ∀ p, p ∈ pairs ↔ p.1 ≠ p.2 ∧ covers p.2 p.1

section Behind

variable {rest : List (ι × ι)} {made : List (ι × ι)}

omit [DecidableEq ι] in
theorem Behind.split (h : Behind covers pairs) (hsplit : pairs = made ++ p :: rest) :
    (∀ q ∈ made, q.2 < p.2 ∨ q.2 = p.2 ∧ q.1 < p.1) ∧
      ∀ q, q.1 ≠ q.2 → covers q.2 q.1 →
        (q.2 < p.2 ∨ q.2 = p.2 ∧ q.1 < p.1 → q ∈ made) ∧
        (p.2 < q.2 → q ∈ rest) := by
  have hsorted := h.sorted
  rw [hsplit] at hsorted
  obtain ⟨-, hlater, hearlier⟩ := List.pairwise_append.mp hsorted
  have hafter := (List.pairwise_cons.mp hlater).1
  have hbefore : ∀ q ∈ made, q.2 < p.2 ∨ q.2 = p.2 ∧ q.1 < p.1 := fun q hq =>
    hearlier q hq p List.mem_cons_self
  refine ⟨hbefore, fun q hne hcovers => ?_⟩
  have hq : q ∈ made ++ p :: rest := hsplit ▸ (h.mem_iff q).mpr ⟨hne, hcovers⟩
  rcases List.mem_append.mp hq with hq | hq
  · refine ⟨fun _ => hq, fun hgt => ?_⟩
    rcases hbefore q hq with hlt | ⟨heq, -⟩
    · exact absurd (hgt.trans hlt) (lt_irrefl _)
    · exact absurd hgt (heq ▸ lt_irrefl _)
  · rcases List.mem_cons.mp hq with rfl | hq
    · refine ⟨fun hless => ?_, fun hgt => absurd hgt (lt_irrefl _)⟩
      rcases hless with hlt | ⟨-, hlt⟩ <;> exact absurd hlt (lt_irrefl _)
    · refine ⟨fun hless => ?_, fun _ => hq⟩
      rcases hafter q hq with hlt | ⟨heq, hlt⟩ <;> rcases hless with hlt' | ⟨heq', hlt'⟩
      · exact absurd (hlt.trans hlt') (lt_irrefl _)
      · exact absurd hlt (heq' ▸ lt_irrefl _)
      · exact absurd hlt' (heq ▸ lt_irrefl _)
      · exact absurd (hlt.trans hlt') (lt_irrefl _)

variable (hl : l.Pairwise (· < ·)) (hall : ∀ x, x ∈ l) (h : Behind covers pairs)
include hl hall h

/-- What a turn has moved already stands ahead of the one whose turn it is. -/
theorem Behind.moved (hsplit : pairs = made ++ p :: rest) (hne : a ≠ p.2) (hcovers : covers p.2 a)
    (hlt : a < p.1) : Ahead (rearrange l made) a p.2 := by
  have hnodup : l.Nodup := hl.imp fun h => ne_of_lt h
  obtain ⟨hbefore, hplace⟩ := h.split hsplit
  have hmade : (a, p.2) ∈ made := (hplace (a, p.2) hne hcovers).1 (.inr ⟨rfl, hlt⟩)
  obtain ⟨first, last, rfl⟩ := List.append_of_mem hmade
  have hsplit' : pairs = first ++ (a, p.2) :: (last ++ p :: rest) := by
    rw [hsplit, List.append_assoc, List.cons_append]
  have hsorted := h.sorted
  rw [hsplit'] at hsorted
  have hafter := (List.pairwise_cons.mp (List.pairwise_append.mp hsorted).2.1).1
  -- the moves in between are of the same turn
  have hothers : ∀ q ∈ last, q.1 ≠ p.2 := by
    intro q hq heq
    have hqne := ((h.mem_iff q).mp (by rw [hsplit']; simp [hq])).1
    rcases hafter q (List.mem_append_left _ hq) with hgt | ⟨hsame, -⟩
    · rcases hbefore q (by simp [hq]) with hless | ⟨hsame, -⟩
      · exact lt_irrefl _ (hgt.trans hless)
      · exact absurd hgt (hsame ▸ lt_irrefl _)
    · exact hqne (heq.trans hsame)
  have hin := mem_rearrange hall first
  have hmove := moveAhead_perm (rearrange l first) (a, p.2) (hin a)
  have hin' : ∀ b, b ∈ moveAhead (rearrange l first) (a, p.2) := fun b => hmove.mem_iff.mpr (hin b)
  have hnow := ahead_of_moveAhead (p := (a, p.2)) (nodup_rearrange hnodup hall first) (hin a)
    (hin p.2) hne
  rw [rearrange_append]
  show Ahead (rearrange (moveAhead (rearrange l first) (a, p.2)) last) a p.2
  exact ahead_rearrange_of_ne (hmove.nodup_iff.mpr (nodup_rearrange hnodup hall first))
    (fun q _ => hin' q.1) hothers (hin' a) (hin' p.2) hnow

/-- Only what may get ahead of another ever does. -/
theorem GetsAhead.of_ahead (hsplit : pairs = made ++ rest) (hne : a ≠ b)
    (hturns : ∀ q ∈ made, q.2 ≤ a) (hahead : Ahead (rearrange l made) a b) :
    GetsAhead covers a b := by
  have hnodup : l.Nodup := hl.imp fun h => ne_of_lt h
  induction made using List.reverseRecOn generalizing rest a with
  | nil => exact .stands ((ahead_of_sorted hl (hall a) (hall b)).mp hahead)
  | append_singleton made p ih =>
      have hsplit' : pairs = made ++ p :: rest := by
        rw [hsplit, List.append_assoc, List.singleton_append]
      have hin := mem_rearrange hall made
      rw [rearrange_append] at hahead
      rcases (ahead_moveAhead_iff (nodup_rearrange hnodup hall made) (hin p.1) (hin a)
        (hin b)).mp hahead with ⟨hnow, -⟩ | ⟨rfl, hle, hlt⟩
      · exact ih hsplit' hne (fun q hq => hturns q (List.mem_append_left _ hq)) hnow
      · obtain ⟨hpne, hcovers⟩ := (h.mem_iff p).mp (by rw [hsplit']; simp)
        rcases lt_or_gt_of_ne hne with hbefore | hbehind
        · exact .stands hbefore
        by_cases hself : p.2 = b
        · exact .own hbehind (hself ▸ hcovers)
        have hfirst : Ahead (rearrange l made) p.2 b :=
          Nat.lt_of_le_of_ne hle fun heq => hself ((List.idxOf_inj (hin p.2)).mp heq)
        have hfree : ¬ covers p.2 b := fun hcov =>
          Nat.lt_asymm hfirst (h.moved hl hall hsplit' (Ne.symm hself) hcov hbehind)
        have hless : p.2 < p.1 :=
          lt_of_le_of_ne (hturns p (by simp)) (Ne.symm hpne)
        have hearlier : ∀ q ∈ made, q.2 ≤ p.2 := fun q hq =>
          ((h.split hsplit').1 q hq).elim le_of_lt fun h => h.1.le
        exact .taken hless hcovers hfree (ih hsplit' hself hearlier hfirst)

/-- Where nothing may get ahead of one that it covers and of one that this
covers, but by moving the latter first, each pass is undone. -/
theorem passesUndone_of_getsAhead (hasymm : ∀ a b, covers a b → ¬ covers b a)
    (hcond : ∀ a b c, b < a → covers a b → covers b c → b ≠ c → GetsAhead covers a b →
      GetsAhead covers a c → covers a c ∧ c < b) :
    PassesUndone (fun a b => (a, b) ∈ pairs) l pairs := by
  have hnodup : l.Nodup := hl.imp fun h => ne_of_lt h
  refine passesUndone_of_splits fun made p rest hsplit c hbelongs hpass => ?_
  obtain ⟨-, hle, hlt⟩ := hpass
  have hin := mem_rearrange hall made
  obtain ⟨hcne, hcovers'⟩ := (h.mem_iff _).mp hbelongs
  obtain ⟨hpne, hcovers⟩ := (h.mem_iff p).mp (by rw [hsplit]; simp)
  rcases lt_or_gt_of_ne hpne with hbefore | hlater
  · have hne : p.2 ≠ c := fun heq => hasymm _ _ hcovers (heq ▸ hcovers')
    have hfirst : Ahead (rearrange l made) p.2 c :=
      Nat.lt_of_le_of_ne hle fun heq => hne ((List.idxOf_inj (hin p.2)).mp heq)
    have hturns : ∀ q ∈ made, q.2 ≤ p.2 := fun q hq =>
      ((h.split hsplit).1 q hq).elim le_of_lt fun h => h.1.le
    have hgets := GetsAhead.of_ahead hl hall h hsplit (Ne.symm hpne) hturns (Nat.lt_of_le_of_lt hle hlt)
    obtain ⟨hboth, hearly⟩ := hcond p.2 p.1 c hbefore hcovers hcovers' (Ne.symm hcne) hgets
      (GetsAhead.of_ahead hl hall h hsplit hne hturns hfirst)
    exact absurd (h.moved hl hall hsplit (Ne.symm hne) hboth hearly) (Nat.lt_asymm hfirst)
  · -- the turn of what was moved is to come
    have hrest : (c, p.1) ∈ rest := ((h.split hsplit).2 (c, p.1) hcne hcovers').2 hlater
    obtain ⟨first, last, rfl⟩ := List.append_of_mem hrest
    have hmove := moveAhead_perm (rearrange l made) p (hin p.1)
    have hnodup' := hmove.nodup_iff.mpr (nodup_rearrange hnodup hall made)
    have hin' : ∀ b, b ∈ moveAhead (rearrange l made) p := fun b => hmove.mem_iff.mpr (hin b)
    have hperm := rearrange_perm (moveAhead (rearrange l made) p) first fun q _ => hin' q.1
    have hnow : Ahead (moveAhead (rearrange l made) p) p.1 c :=
      (ahead_moveAhead_iff (nodup_rearrange hnodup hall made) (hin p.1) (hin p.1) (hin c)).mpr
        (.inr ⟨rfl, hle, hlt⟩)
    have hafter : Ahead (rearrange (moveAhead (rearrange l made) p) (first ++ [(c, p.1)])) c p.1 := by
      rw [rearrange_append]
      exact ahead_of_moveAhead (p := (c, p.1)) (hperm.nodup_iff.mpr hnodup')
        (hperm.mem_iff.mpr (hin' c)) (hperm.mem_iff.mpr (hin' p.1)) hcne
    have hpassed := passed_of_turned hnodup' (fun q _ => hin' q.1) (hin' c) (hin' p.1) hnow hafter
    have happend := hpassed.append last
    rwa [List.append_assoc, List.singleton_append] at happend

omit h in
/-- The turns with the pairs the other way round. -/
theorem behind_turns [DecidableRel covers] :
    Behind covers ((l.flatMap (turnOf covers l)).map Prod.swap) := by
  constructor
  · rw [List.pairwise_map, List.pairwise_flatMap]
    refine ⟨fun j _ => ?_, hl.imp fun hlt p hp q hq => ?_⟩
    · exact List.pairwise_map.mpr ((hl.filter _).imp fun hlt => .inr ⟨rfl, hlt⟩)
    · obtain ⟨_, -, rfl⟩ := List.mem_map.mp hp
      obtain ⟨_, -, rfl⟩ := List.mem_map.mp hq
      exact .inl hlt
  · rintro ⟨i, j⟩
    simp [turnOf, hall]

end Behind

end Turns

end MarkSdk.Lib
