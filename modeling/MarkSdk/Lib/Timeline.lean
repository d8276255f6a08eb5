import Mathlib.Data.List.Sort
import Mathlib.Order.Basic

/-!
Timelines: lists of intervals in which each one ends where the next begins.

The elements of a timeline have a start and an optional end, on a linear
order of times. `Tiles` says that the ends are derived from the order alone:
an element ends at the start of its successor, and the last one has no end.
In a sorted timeline the intervals then cover every time from the first
start on, exactly once (`tiles_filter_covers`). The last section is about
sorting: a stable sort commutes with selecting elements.
-/

namespace MarkSdk.Lib

variable {α τ : Type}

/-- Each element ends where the next one begins, and the last never ends. -/
def Tiles (start : α → τ) (stop : α → Option τ) : List α → Prop
  | [] => True
  | [a] => stop a = none
  | a :: b :: l => stop a = some (start b) ∧ Tiles start stop (b :: l)

/-- Every element with the start of the next one. -/
def nextStarts (start : α → τ) : List α → List (α × Option τ)
  | [] => []
  | a :: l => (a, l.head?.map start) :: nextStarts start l

@[simp] theorem map_fst_nextStarts (start : α → τ) (l : List α) :
    (nextStarts start l).map Prod.fst = l := by
  induction l with
  | nil => rfl
  | cons a l ih => simp [nextStarts, ih]

theorem tiles_cons_iff {start : α → τ} {stop : α → Option τ} {a : α} {l : List α} :
    Tiles start stop (a :: l) ↔ stop a = l.head?.map start ∧ Tiles start stop l := by
  cases l with
  | nil => simp [Tiles]
  | cons b l => simp [Tiles]

/-- The ends of a tiled timeline by position. -/
theorem tiles_iff_getElem {start : α → τ} {stop : α → Option τ} {l : List α} :
    Tiles start stop l ↔ ∀ i (h : i < l.length), stop l[i] = l[i + 1]?.map start := by
  induction l with
  | nil => simp [Tiles]
  | cons a l ih =>
      rw [tiles_cons_iff, ih]
      constructor
      · rintro ⟨ha, hl⟩ i hi
        cases i with
        | zero => simpa [List.head?_eq_getElem?] using ha
        | succ i => simpa using hl i (by simpa using hi)
      · intro h
        refine ⟨?_, fun i hi => ?_⟩
        · have := h 0 (by simp)
          rw [List.getElem_cons_zero] at this
          rw [this, List.head?_eq_getElem?]
          rfl
        · have := h (i + 1) (by simpa using hi)
          rw [List.getElem_cons_succ] at this
          rw [this]
          rfl

/-- Writing the start of the next element into each element makes a tiling. -/
theorem tiles_nextStarts {start : α → τ} {stop : α → Option τ} (assign : Option τ → α → α)
    (hstart : ∀ e a, start (assign e a) = start a) (hstop : ∀ e a, stop (assign e a) = e)
    (l : List α) :
    Tiles start stop ((nextStarts start l).map fun p => assign p.2 p.1) := by
  induction l with
  | nil => trivial
  | cons a l ih =>
      rw [nextStarts, List.map_cons, tiles_cons_iff]
      refine ⟨?_, ih⟩
      cases l with
      | nil => simp [hstop, nextStarts]
      | cons b l => simp [hstop, hstart, nextStarts]

theorem nextStarts_map {β : Type} (start : β → τ) (f : α → β) (l : List α) :
    nextStarts start (l.map f) =
      (nextStarts (fun a => start (f a)) l).map fun u => (f u.1, u.2) := by
  induction l with
  | nil => rfl
  | cons a l ih =>
      rw [List.map_cons, nextStarts, nextStarts, List.map_cons, ih]
      cases l <;> rfl

/-- In a tiling every element stands with the start of the next one. -/
theorem nextStarts_eq_of_tiles {start : α → τ} {stop : α → Option τ} {l : List α}
    (h : Tiles start stop l) : nextStarts start l = l.map fun a => (a, stop a) := by
  induction l with
  | nil => rfl
  | cons a l ih =>
      obtain ⟨hstop, hl⟩ := tiles_cons_iff.mp h
      rw [nextStarts, List.map_cons, ih hl, hstop]

/-- Being tiled depends on the starts and the ends only. -/
theorem Tiles.of_map {β : Type} {start : α → τ} {stop : α → Option τ} {start' : β → τ}
    {stop' : β → Option τ} {f : α → β} (hstart : ∀ a, start' (f a) = start a)
    (hstop : ∀ a, stop' (f a) = stop a) {l : List α} (h : Tiles start stop l) :
    Tiles start' stop' (l.map f) := by
  induction l with
  | nil => trivial
  | cons a l ih =>
      rw [tiles_cons_iff] at h
      rw [List.map_cons, tiles_cons_iff]
      refine ⟨?_, ih h.2⟩
      rw [hstop, h.1]
      cases l <;> simp [hstart]

section Covers

variable [LinearOrder τ]

/-- The interval of `a` holds at time `t`: it has begun and has not ended. -/
def covers (start : α → τ) (stop : α → Option τ) (t : τ) (a : α) : Bool :=
  decide (start a ≤ t) &&
    match stop a with
    | none => true
    | some e => decide (t < e)

@[simp] theorem covers_iff {start : α → τ} {stop : α → Option τ} {t : τ} {a : α} :
    covers start stop t a = true ↔ start a ≤ t ∧ ∀ e, stop a = some e → t < e := by
  unfold covers
  cases stop a <;> simp

/-- In a sorted tiling the intervals that hold at `t` are one: the last that
has begun by then, if any has. -/
theorem tiles_filter_covers {start : α → τ} {stop : α → Option τ} {l : List α}
    (hsorted : l.Pairwise fun a b => start a ≤ start b) (htiles : Tiles start stop l) (t : τ) :
    l.filter (covers start stop t) = ((l.filter fun a => start a ≤ t).getLast?).toList := by
  induction l with
  | nil => rfl
  | cons a l ih =>
      obtain ⟨hfirst, hrest⟩ := List.pairwise_cons.mp hsorted
      obtain ⟨hstop, hl⟩ := tiles_cons_iff.mp htiles
      have ih' := ih hrest hl
      cases l with
      | nil =>
          have hnone : stop a = none := hstop
          by_cases ha : start a ≤ t
          · have hcov : covers start stop t a = true := by simp [hnone, ha]
            simp [ha, hcov]
          · have hcov : covers start stop t a = false := by simp [covers, ha]
            simp [ha, hcov]
      | cons b l =>
          have hnext : stop a = some (start b) := hstop
          by_cases hb : start b ≤ t
          · -- the next element has begun, so this one is over
            have ha : start a ≤ t := (hfirst b List.mem_cons_self).trans hb
            have hover : covers start stop t a = false := by
              simp [covers, hnext, not_lt.mpr hb]
            have hcons : (b :: l).filter (fun x => decide (start x ≤ t)) ≠ [] := by
              simp [hb]
            have hbegun : (a :: b :: l).filter (fun x => decide (start x ≤ t)) =
                a :: (b :: l).filter (fun x => decide (start x ≤ t)) :=
              List.filter_cons_of_pos (by simpa using ha)
            rw [hbegun, List.getLast?_cons_of_ne_nil hcons, ← ih']
            exact List.filter_cons_of_neg (by simp [hover])
          · -- nothing after this element has begun
            have hlater : ∀ x ∈ b :: l, ¬ start x ≤ t := by
              intro x hx
              rcases List.mem_cons.mp hx with rfl | hx
              · exact hb
              · exact fun h => hb (((List.pairwise_cons.mp hrest).1 x hx).trans h)
            have hempty : (b :: l).filter (fun x => decide (start x ≤ t)) = [] := by
              rw [List.filter_eq_nil_iff]
              intro x hx
              simpa using hlater x hx
            rw [hempty] at ih'
            by_cases ha : start a ≤ t
            · have hcov : covers start stop t a = true := by
                simp [covers, hnext, ha, not_le.mp hb]
              have hbegun : (a :: b :: l).filter (fun x => decide (start x ≤ t)) =
                  a :: (b :: l).filter (fun x => decide (start x ≤ t)) :=
                List.filter_cons_of_pos (by simpa using ha)
              rw [List.filter_cons_of_pos hcov, ih', hbegun, hempty]
              rfl
            · have hcov : covers start stop t a = false := by simp [covers, ha]
              have hbegun : (a :: b :: l).filter (fun x => decide (start x ≤ t)) =
                  (b :: l).filter (fun x => decide (start x ≤ t)) :=
                List.filter_cons_of_neg (by simpa using ha)
              rw [hbegun, hempty, ← ih']
              exact List.filter_cons_of_neg (by simp [hcov])

/-- Where an element of a sorted tiling begins, one that begins there holds:
the last of those. -/
theorem exists_covers_start {start : α → τ} {stop : α → Option τ} {l : List α}
    (hsorted : l.Pairwise fun a b => start a ≤ start b) (htiles : Tiles start stop l)
    {a : α} (ha : a ∈ l) :
    ∃ b ∈ l, start b = start a ∧ covers start stop (start a) b = true := by
  have hmem : a ∈ l.filter fun x => start x ≤ start a := List.mem_filter.mpr ⟨ha, by simp⟩
  obtain ⟨begun, b, hbegun⟩ :=
    (List.eq_nil_or_concat' (l.filter fun x => decide (start x ≤ start a))).resolve_left
      (List.ne_nil_of_mem hmem)
  have hone := tiles_filter_covers hsorted htiles (start a)
  rw [hbegun, List.getLast?_concat] at hone
  have hlast : b ∈ l.filter (covers start stop (start a)) := by
    rw [hone]
    exact List.mem_singleton_self b
  obtain ⟨hb, hcovers⟩ := List.mem_filter.mp hlast
  refine ⟨b, hb, le_antisymm (covers_iff.mp hcovers).1 ?_, hcovers⟩
  have hpairs := hsorted.filter fun x => decide (start x ≤ start a)
  rw [hbegun] at hpairs hmem
  rcases List.mem_append.mp hmem with hearly | hself
  · exact (List.pairwise_append.mp hpairs).2.2 a hearly b (List.mem_singleton_self b)
  · rw [List.mem_singleton.mp hself]

theorem start_le_of_mem_nextStarts {start : α → τ} {l : List α}
    (hsorted : l.Pairwise fun a b => start a ≤ start b) {u : α × Option τ}
    (hu : u ∈ nextStarts start l) {e : τ} (he : u.2 = some e) : start u.1 ≤ e := by
  induction l with
  | nil => simp [nextStarts] at hu
  | cons a l ih =>
      obtain ⟨hfirst, hrest⟩ := List.pairwise_cons.mp hsorted
      rcases List.mem_cons.mp hu with rfl | hu
      · cases l with
        | nil => simp at he
        | cons b l =>
            have hb : start b = e := by simpa using he
            rw [← hb]
            exact hfirst b List.mem_cons_self
      · exact ih hrest hu

end Covers

/-! ### Stable sorting -/

section Sorting

variable (r : α → α → Prop) [DecidableRel r]

theorem filter_orderedInsert [IsTrans α r] (p : α → Bool) (a : α) {l : List α}
    (hl : l.Pairwise r) :
    (l.orderedInsert r a).filter p =
      if p a then (l.filter p).orderedInsert r a else l.filter p := by
  induction l with
  | nil => cases h : p a <;> simp [h]
  | cons b l ih =>
      obtain ⟨hb, hl'⟩ := List.pairwise_cons.mp hl
      rw [List.orderedInsert_cons]
      by_cases hab : r a b
      · rw [if_pos hab]
        cases hpa : p a with
        | false => simp [hpa]
        | true =>
            -- everything kept behind `b` also comes after `a`
            have hafter : ∀ x ∈ (b :: l).filter p, r a x := by
              intro x hx
              rcases List.mem_cons.mp (List.mem_filter.mp hx).1 with rfl | hx
              · exact hab
              · exact IsTrans.trans _ _ _ hab (hb x hx)
            rw [List.filter_cons_of_pos hpa, if_pos rfl]
            cases hf : (b :: l).filter p with
            | nil => rfl
            | cons c m =>
                rw [List.orderedInsert_cons_of_le]
                exact hafter c (by simp [hf])
      · rw [if_neg hab]
        cases hpb : p b with
        | false => simp [hpb, ih hl']
        | true =>
            rw [List.filter_cons_of_pos hpb, ih hl', List.filter_cons_of_pos hpb]
            split
            · rw [List.orderedInsert_of_not_le r _ hab]
            · rfl

/-- Sorting what is selected is selecting from what is sorted. -/
theorem filter_insertionSort [IsTrans α r] [Std.Total r] (p : α → Bool) (l : List α) :
    (l.insertionSort r).filter p = (l.filter p).insertionSort r := by
  induction l with
  | nil => rfl
  | cons a l ih =>
      rw [List.insertionSort_cons, filter_orderedInsert r p a (List.pairwise_insertionSort r l), ih]
      cases hpa : p a <;> simp [hpa]

end Sorting

/-! ### The latest of a list -/

section Latest

variable [LinearOrder τ]

/-- The last element once the list is sorted by `key`; of those that tie, the
one that came last. -/
def latestBy (key : α → τ) (l : List α) : Option α :=
  (l.insertionSort fun a b => key a ≤ key b).getLast?

variable {key : α → τ}

theorem getLast?_orderedInsert {a : α} {l : List α} (hl : l.Pairwise fun a b => key a ≤ key b) :
    (l.orderedInsert (fun a b => key a ≤ key b) a).getLast? =
      match l.getLast? with
      | none => some a
      | some b => if key a ≤ key b then some b else some a := by
  induction l with
  | nil => rfl
  | cons b l ih =>
      obtain ⟨hb, hl'⟩ := List.pairwise_cons.mp hl
      obtain ⟨z, hz⟩ : ∃ z, (b :: l).getLast? = some z := ⟨_, List.getLast?_cons⟩
      have hzle : key b ≤ key z := by
        rcases List.mem_cons.mp (List.mem_of_getLast? hz) with rfl | hmem
        · exact le_rfl
        · exact hb z hmem
      rw [List.orderedInsert_cons, hz]
      by_cases hab : key a ≤ key b
      · rw [if_pos hab, List.getLast?_cons_cons, hz]
        simp only
        rw [if_pos (hab.trans hzle)]
      · have hne : l.orderedInsert (fun a b => key a ≤ key b) a ≠ [] := by
          intro hnil
          have hlength := congrArg List.length hnil
          rw [List.orderedInsert_length] at hlength
          cases hlength
        rw [if_neg hab, List.getLast?_cons_of_ne_nil hne, ih hl']
        cases l with
        | nil =>
            obtain rfl : b = z := by simpa using hz
            simp [hab]
        | cons c l =>
            rw [List.getLast?_cons_cons] at hz
            rw [hz]

theorem latestBy_cons (a : α) (l : List α) :
    latestBy key (a :: l) =
      match latestBy key l with
      | none => some a
      | some b => if key a ≤ key b then some b else some a := by
  have htrans : IsTrans α fun a b => key a ≤ key b := ⟨fun _ _ _ => le_trans⟩
  have htotal : Std.Total fun a b : α => key a ≤ key b := ⟨fun _ _ => le_total _ _⟩
  exact getLast?_orderedInsert (List.pairwise_insertionSort (fun a b => key a ≤ key b) l)

/-- An element at the end of the list is the latest unless another one has a
greater key. -/
theorem latestBy_concat (l : List α) (a : α) :
    latestBy key (l ++ [a]) =
      match latestBy key l with
      | none => some a
      | some b => if key b ≤ key a then some a else some b := by
  induction l with
  | nil => rfl
  | cons c l ih =>
      rw [List.cons_append, latestBy_cons, ih, latestBy_cons]
      cases latestBy key l with
      | none => rfl
      | some b => grind

theorem latestBy_map {f : α → α} (hf : ∀ a, key (f a) = key a) (l : List α) :
    latestBy key (l.map f) = (latestBy key l).map f := by
  unfold latestBy
  rw [← List.map_insertionSort (fun a b => key a ≤ key b) (fun a b => key a ≤ key b) f l
    fun a _ b _ => by rw [hf a, hf b], List.getLast?_map]

theorem mem_of_latestBy {l : List α} {a : α} (h : latestBy key l = some a) : a ∈ l :=
  (List.mem_insertionSort _).mp (List.mem_of_getLast? h)

end Latest

end MarkSdk.Lib
