import Mathlib.Data.List.Count
import MarkSdk.Lib.Dict

/-!
The two kinds of partition of the vector index.

A Python partition is a dictionary. A numpy partition is a matrix with one
row for each id ever added since it was last compacted: a removal marks the
row dead, and when too many are dead the live rows are copied into a new
matrix. `Holds` ties the matrix to the dictionary it stands for, and every
operation keeps it.
-/

namespace MarkSdk

open Lib

variable {ρ : Type}

/-- `_NumpyPartition`. `matrix` is the rows written so far, out of
`capacity`; what lies beyond is never read. -/
structure NumpyPartition (ρ : Type) where
  dim : Nat
  capacity : Nat
  matrix : List (List ρ)
  ids : List (Option String)
  pos : Dict String Nat
  dead : Option (List Bool)
  deadCount : Nat

namespace NumpyPartition

def empty (dim : Nat) : NumpyPartition ρ := ⟨dim, 16, [], [], .empty, none, 0⟩

/-- Room for `needed` rows and an eighth more, or twice as many for a small matrix. -/
def roomFor (needed : Nat) : Nat := max 16 (needed + max (needed / 8) (min needed 65536))

def grow (p : NumpyPartition ρ) (needed : Nat) : NumpyPartition ρ :=
  { p with
    capacity := roomFor needed
    dead := p.dead.map fun d => d ++ List.replicate (roomFor needed - d.length) false }

def add (p : NumpyPartition ρ) (fragmentId : String) (vector : List ρ) : NumpyPartition ρ :=
  match p.pos.get? fragmentId with
  | some row => { p with matrix := p.matrix.set row vector }
  | none =>
      let size := p.ids.length
      let p := if size ≥ p.capacity then p.grow (size + 1) else p
      { p with
        matrix := p.matrix ++ [vector]
        ids := p.ids ++ [some fragmentId]
        pos := p.pos.set fragmentId size }

def addMatrix (p : NumpyPartition ρ) (ids : List String) (rows : List (List ρ)) (expected : Nat) :
    NumpyPartition ρ :=
  let size := p.ids.length
  let p := if size + ids.length > p.capacity then p.grow (max (size + ids.length) expected) else p
  { p with
    matrix := p.matrix ++ rows
    ids := p.ids ++ ids.map some
    pos := p.pos.updateAll (ids.zipIdx size) }

/-- `_compact`: the live rows, in their order, in a new matrix. -/
def compact (p : NumpyPartition ρ) : NumpyPartition ρ :=
  let live := p.pos.rows
  { p with
    capacity := roomFor live.length
    matrix := live.map fun r => p.matrix.getD r.2 []
    ids := live.map fun r => some r.1
    pos := Dict.updateAll .empty (p.pos.keys.zipIdx)
    dead := none
    deadCount := 0 }

/-- The mask of dead rows, as long as the matrix. -/
def deadMask (p : NumpyPartition ρ) : List Bool :=
  match p.dead with
  | none => List.replicate p.capacity false
  | some d => d ++ List.replicate (p.capacity - d.length) false

def remove (p : NumpyPartition ρ) (fragmentId : String) : NumpyPartition ρ :=
  match p.pos.get? fragmentId with
  | none => p
  | some row =>
      let p :=
        { p with
          pos := p.pos.pop fragmentId
          dead := some (p.deadMask.set row true)
          ids := p.ids.set row none
          deadCount := p.deadCount + 1 }
      if p.deadCount > max 64 (p.ids.length / 4) then p.compact else p

def get (p : NumpyPartition ρ) (fragmentId : String) : Option (List ρ) :=
  (p.pos.get? fragmentId).map fun row => p.matrix.getD row []

/-- The live ids with their vectors, in the order of the rows. -/
def items (p : NumpyPartition ρ) : List (String × List ρ) :=
  p.pos.rows.map fun r => (r.1, p.matrix.getD r.2 [])

/-- `vectors`. -/
def toDict (p : NumpyPartition ρ) : Dict String (List ρ) :=
  p.pos.mapValues fun row => p.matrix.getD row []

@[simp] theorem rows_toDict (p : NumpyPartition ρ) : p.toDict.rows = p.items := rfl

end NumpyPartition

/-- `_PythonPartition` or `_NumpyPartition`. -/
inductive Partition (ρ : Type) where
  | python (vectors : Dict String (List ρ))
  | numpy (p : NumpyPartition ρ)

namespace Partition

def add (fragmentId : String) (vector : List ρ) : Partition ρ → Partition ρ
  | .python vectors => .python (vectors.set fragmentId vector)
  | .numpy p => .numpy (p.add fragmentId vector)

def remove (fragmentId : String) : Partition ρ → Partition ρ
  | .python vectors => .python (vectors.pop fragmentId)
  | .numpy p => .numpy (p.remove fragmentId)

def get (fragmentId : String) : Partition ρ → Option (List ρ)
  | .python vectors => vectors.get? fragmentId
  | .numpy p => p.get fragmentId

/-- `keys()` and `ids()`, in the order of insertion. -/
def ids : Partition ρ → List String
  | .python vectors => vectors.keys
  | .numpy p => p.pos.keys

def size : Partition ρ → Nat
  | .python vectors => vectors.size
  | .numpy p => p.pos.size

/-- `vectors`: the ids with their vectors, in the order of insertion. -/
def toDict : Partition ρ → Dict String (List ρ)
  | .python vectors => vectors
  | .numpy p => p.toDict

end Partition

/-! ### Rows and their ids -/

/-- The ids that are left, with their rows from row `k` on. -/
def occupiedRows : List (Option String) → Nat → List (String × Nat)
  | [], _ => []
  | none :: ids, k => occupiedRows ids (k + 1)
  | some fragmentId :: ids, k => (fragmentId, k) :: occupiedRows ids (k + 1)

theorem occupiedRows_append (ids ids' : List (Option String)) (k : Nat) :
    occupiedRows (ids ++ ids') k = occupiedRows ids k ++ occupiedRows ids' (k + ids.length) := by
  induction ids generalizing k with
  | nil => rfl
  | cons c ids ih =>
      have hnext : k + 1 + ids.length = k + (ids.length + 1) := by omega
      cases c with
      | none => simp only [List.cons_append, occupiedRows, ih, List.length_cons, hnext]
      | some fragmentId => simp only [List.cons_append, occupiedRows, ih, List.length_cons, hnext]

theorem occupiedRows_some (ids : List String) (k : Nat) :
    occupiedRows (ids.map some) k = ids.zipIdx k := by
  induction ids generalizing k with
  | nil => rfl
  | cons fragmentId ids ih => simp only [List.map_cons, occupiedRows, ih, List.zipIdx_cons]

theorem mem_occupiedRows {ids : List (Option String)} {k : Nat} {r : String × Nat} :
    r ∈ occupiedRows ids k ↔ k ≤ r.2 ∧ ids[r.2 - k]? = some (some r.1) := by
  induction ids generalizing k with
  | nil => simp [occupiedRows]
  | cons c ids ih =>
      have hshift (h : k < r.2) : (c :: ids)[r.2 - k]? = ids[r.2 - (k + 1)]? := by
        have hpos : r.2 - k = (r.2 - (k + 1)) + 1 := by omega
        rw [hpos, List.getElem?_cons_succ]
      have hrest : r ∈ occupiedRows ids (k + 1) ↔ k < r.2 ∧ (c :: ids)[r.2 - k]? = some (some r.1) := by
        rw [ih]
        refine ⟨fun h => ⟨h.1, (hshift h.1).trans h.2⟩, fun h => ⟨h.1, (hshift h.1).symm.trans h.2⟩⟩
      have hhead (h : r.2 = k) : (c :: ids)[r.2 - k]? = some c := by
        rw [h, Nat.sub_self, List.getElem?_cons_zero]
      cases c with
      | none =>
          rw [occupiedRows, hrest]
          refine and_congr_left fun hid => ⟨Nat.le_of_lt, fun hle => ?_⟩
          refine Nat.lt_of_le_of_ne hle fun heq => ?_
          rw [hhead heq.symm] at hid
          cases hid
      | some fragmentId =>
          rw [occupiedRows, List.mem_cons, hrest]
          constructor
          · rintro (rfl | ⟨hlt, hid⟩)
            · exact ⟨Nat.le_refl k, hhead rfl⟩
            · exact ⟨Nat.le_of_lt hlt, hid⟩
          · rintro ⟨hle, hid⟩
            rcases Nat.lt_or_eq_of_le hle with hlt | heq
            · exact .inr ⟨hlt, hid⟩
            · rw [hhead heq.symm] at hid
              cases hid
              exact .inl (Prod.ext rfl heq.symm)

/-- A dead row is in none of the places. -/
theorem occupiedRows_set_none (ids : List (Option String)) (row k : Nat) :
    occupiedRows (ids.set row none) k = (occupiedRows ids k).filter fun r => r.2 ≠ k + row := by
  have hkeep (ids : List (Option String)) (k : Nat) :
      (occupiedRows ids (k + 1)).filter (fun r => r.2 ≠ k + 0) = occupiedRows ids (k + 1) := by
    rw [List.filter_eq_self]
    intro r hr
    have hle := (mem_occupiedRows.mp hr).1
    have hne : r.2 ≠ k + 0 := by omega
    simpa using hne
  induction ids generalizing row k with
  | nil => rfl
  | cons c ids ih =>
      cases row with
      | zero =>
          rw [List.set_cons_zero, occupiedRows]
          cases c with
          | none => rw [occupiedRows, hkeep]
          | some fragmentId =>
              rw [occupiedRows, List.filter_cons_of_neg (by simp), hkeep]
      | succ row =>
          have hrow : k + (row + 1) = k + 1 + row := by omega
          rw [List.set_cons_succ, hrow]
          cases c with
          | none => rw [occupiedRows, occupiedRows, ih]
          | some fragmentId =>
              have hne : k ≠ k + 1 + row := by omega
              rw [occupiedRows, occupiedRows, ih, List.filter_cons_of_pos (by simpa using hne)]

namespace NumpyPartition

/-- The matrix, the ids, the places and the mask belong together. -/
structure Sound (p : NumpyPartition ρ) : Prop where
  length : p.matrix.length = p.ids.length
  fits : p.ids.length ≤ p.capacity
  pos : p.pos.rows = occupiedRows p.ids 0
  mask : p.deadMask =
    p.ids.map Option.isNone ++ List.replicate (p.capacity - p.ids.length) false
  deadCount : p.deadCount = p.ids.count none
  unmarked : p.dead = none → p.deadCount = 0

/-- The partition stands for the dictionary. -/
structure Holds (p : NumpyPartition ρ) (d : Dict String (List ρ)) : Prop extends p.Sound where
  items : p.items = d.rows

variable {p : NumpyPartition ρ} {d : Dict String (List ρ)}

theorem holds_empty (dim : Nat) : (empty dim : NumpyPartition ρ).Holds .empty where
  length := rfl
  fits := Nat.zero_le _
  pos := rfl
  mask := rfl
  deadCount := rfl
  unmarked := fun _ => rfl
  items := rfl

theorem keys_of_holds (h : p.Holds d) : p.pos.keys = d.keys := by
  rw [Dict.keys, Dict.keys, ← h.items, items, List.map_map]
  rfl

theorem Sound.getElem?_of_get? (h : p.Sound) {fragmentId : String} {row : Nat}
    (hrow : p.pos.get? fragmentId = some row) :
    p.ids[row]? = some (some fragmentId) ∧ row < p.ids.length := by
  have hmem := Dict.get?_eq_some_iff.mp hrow
  rw [h.pos, mem_occupiedRows] at hmem
  exact ⟨hmem.2, (List.getElem?_eq_some_iff.mp hmem.2).1⟩

/-! Room is made without a change to the rows. -/

theorem le_roomFor (needed : Nat) : needed ≤ roomFor needed := by
  rw [roomFor]
  omega

theorem Sound.length_deadMask (h : p.Sound) : p.deadMask.length = p.capacity := by
  have hfits := h.fits
  rw [h.mask, List.length_append, List.length_map, List.length_replicate]
  omega

theorem deadMask_of_none (h : p.dead = none) :
    p.deadMask = List.replicate p.capacity false := by
  rw [deadMask, h]

theorem deadMask_of_some {mask : List Bool} (h : p.dead = some mask) :
    p.deadMask = mask ++ List.replicate (p.capacity - mask.length) false := by
  rw [deadMask, h]

theorem deadMask_grow (h : p.Sound) {needed : Nat} (hneeded : p.capacity ≤ roomFor needed) :
    (p.grow needed).deadMask =
      p.deadMask ++ List.replicate (roomFor needed - p.capacity) false := by
  have hlength := h.length_deadMask
  cases hdead : p.dead with
  | none =>
      have hroom : p.capacity + (roomFor needed - p.capacity) = roomFor needed := by omega
      rw [deadMask_of_none hdead, List.replicate_append_replicate, hroom]
      exact deadMask_of_none (by rw [grow, hdead, Option.map_none])
  | some mask =>
      rw [deadMask_of_some hdead, List.length_append, List.length_replicate] at hlength
      have hroom : p.capacity - mask.length + (roomFor needed - p.capacity) =
          roomFor needed - mask.length := by omega
      have hfull : roomFor needed - (mask.length + (roomFor needed - mask.length)) = 0 := by omega
      have hgrown : (p.grow needed).deadMask =
          (mask ++ List.replicate (roomFor needed - mask.length) false) ++
            List.replicate (roomFor needed - (mask ++
              List.replicate (roomFor needed - mask.length) false).length) false :=
        deadMask_of_some (by rw [grow, hdead, Option.map_some])
      rw [hgrown, List.length_append, List.length_replicate, hfull, List.replicate_zero,
        List.append_nil, deadMask_of_some hdead, List.append_assoc,
        List.replicate_append_replicate, hroom]

theorem holds_grow (h : p.Holds d) {needed : Nat} (hneeded : p.capacity ≤ roomFor needed) :
    (p.grow needed).Holds d where
  length := h.length
  fits := Nat.le_trans h.fits hneeded
  pos := h.pos
  mask := by
    have hfits := h.fits
    have hroom : p.capacity - p.ids.length + (roomFor needed - p.capacity) =
        roomFor needed - p.ids.length := by omega
    rw [deadMask_grow h.toSound hneeded, h.mask, List.append_assoc,
      List.replicate_append_replicate, hroom]
    rfl
  deadCount := h.deadCount
  unmarked := by
    intro hdead
    refine h.unmarked ?_
    rwa [grow, Option.map_eq_none_iff] at hdead
  items := h.items

/-- New rows come after the ones of the matrix. -/
theorem map_zipIdx_append (matrix : List (List ρ)) {ids : List String} {rows : List (List ρ)}
    (hlength : rows.length = ids.length) :
    (ids.zipIdx matrix.length).map (fun r => (r.1, (matrix ++ rows).getD r.2 [])) =
      ids.zip rows := by
  induction ids generalizing matrix rows with
  | nil => rfl
  | cons fragmentId ids ih =>
      obtain ⟨row, rows, rfl⟩ := List.exists_cons_of_length_eq_add_one hlength
      have hrest := ih (matrix ++ [row]) (Nat.succ.inj hlength)
      rw [List.length_append, List.append_assoc] at hrest
      rw [List.zipIdx_cons, List.map_cons, List.zip_cons_cons, ← hrest]
      congr 2
      rw [List.getD_eq_getElem?_getD, List.getElem?_append_right (Nat.le_refl _), Nat.sub_self]
      rfl

/-- What is appended gets the next rows; the ids are new. -/
theorem holds_append (h : p.Holds d) {ids : List String} {rows : List (List ρ)}
    (hlength : rows.length = ids.length) (hroom : p.ids.length + ids.length ≤ p.capacity)
    (hfresh : ∀ fragmentId ∈ ids, fragmentId ∉ d.keys) (hnodup : ids.Nodup) :
    ({ p with
      matrix := p.matrix ++ rows
      ids := p.ids ++ ids.map some
      pos := p.pos.updateAll (ids.zipIdx p.ids.length) } : NumpyPartition ρ).Holds
      (d.updateAll (ids.zip rows)) := by
  have hpos : (p.pos.updateAll (ids.zipIdx p.ids.length)).rows =
      p.pos.rows ++ ids.zipIdx p.ids.length := by
    refine Dict.rows_updateAll (fun r hr => ?_) ?_
    · rw [keys_of_holds h]
      exact hfresh r.1 (List.fst_mem_of_mem_zipIdx hr)
    · rw [List.zipIdx_map_fst]
      exact hnodup
  have hd : (d.updateAll (ids.zip rows)).rows = d.rows ++ ids.zip rows := by
    refine Dict.rows_updateAll (fun r hr => hfresh r.1 (List.of_mem_zip hr).1) ?_
    rw [List.map_fst_zip (Nat.le_of_eq hlength.symm)]
    exact hnodup
  exact
    { length := by simp only [List.length_append, List.length_map, h.length, hlength]
      fits := by simpa only [List.length_append, List.length_map] using hroom
      pos := by rw [hpos, h.pos, occupiedRows_append, occupiedRows_some, Nat.zero_add]
      mask := by
        have hnew : (ids.map some).map Option.isNone = List.replicate ids.length false := by
          rw [List.map_map]
          exact List.map_const'
        have hcapacity : p.capacity - p.ids.length =
            ids.length + (p.capacity - (p.ids ++ ids.map some).length) := by
          rw [List.length_append, List.length_map]
          omega
        show p.deadMask = _
        rw [h.mask, List.map_append, hnew, List.append_assoc, List.replicate_append_replicate,
          hcapacity]
      deadCount := by
        rw [List.count_append, ← h.deadCount, List.count_eq_zero_of_not_mem (by simp)]
        rfl
      unmarked := h.unmarked
      items := by
        have hold : p.pos.rows.map (fun r => (r.1, (p.matrix ++ rows).getD r.2 [])) = p.items := by
          refine List.map_congr_left fun r hr => ?_
          rw [h.pos, mem_occupiedRows] at hr
          have hlt := (List.getElem?_eq_some_iff.mp hr.2).1
          rw [Nat.sub_zero, ← h.length] at hlt
          rw [List.getD_eq_getElem?_getD, List.getD_eq_getElem?_getD,
            List.getElem?_append_left hlt]
        rw [items, hpos, List.map_append, hold, h.items, hd, ← h.length,
          map_zipIdx_append p.matrix hlength] }

/-- The matrix before an append, grown if `full`. -/
theorem holds_makeRoom (h : p.Holds d) {full : Prop} [Decidable full] {size needed : Nat}
    (hneeded : size ≤ needed)
    (hfull : ¬ full → size ≤ p.capacity) (hgrow : full → p.capacity ≤ needed) :
    let q := if full then p.grow needed else p
    q.Holds d ∧ q.ids.length = p.ids.length ∧ size ≤ q.capacity := by
  have hroom := le_roomFor needed
  intro q
  by_cases hf : full
  · have hq : q = p.grow needed := if_pos hf
    rw [hq]
    exact ⟨holds_grow h (Nat.le_trans (hgrow hf) hroom), rfl, Nat.le_trans hneeded hroom⟩
  · have hq : q = p := if_neg hf
    rw [hq]
    exact ⟨h, rfl, hfull hf⟩

theorem holds_overwrite (h : p.Holds d) {fragmentId : String} {row : Nat}
    (hget : p.pos.get? fragmentId = some row) (vector : List ρ) :
    ({ p with matrix := p.matrix.set row vector } : NumpyPartition ρ).Holds
      (d.set fragmentId vector) := by
  obtain ⟨hid, hlt⟩ := h.toSound.getElem?_of_get? hget
  have hmem : fragmentId ∈ d.keys := by
    rw [← keys_of_holds h, Dict.mem_keys_iff]
    exact ⟨row, hget⟩
  refine ⟨⟨?_, h.fits, h.pos, h.mask, h.deadCount, h.unmarked⟩, ?_⟩
  · rw [List.length_set]
    exact h.length
  · rw [Dict.rows_set_of_mem hmem, ← h.items, items, items, List.map_map]
    refine List.map_congr_left fun r hr => ?_
    have hr' := hr
    rw [h.pos, mem_occupiedRows, Nat.sub_zero] at hr'
    rw [Function.comp_apply, List.getD_eq_getElem?_getD, List.getElem?_set]
    -- a row holds one id, an id is in one row
    by_cases hrow : row = r.2
    · have hsame : r.1 = fragmentId := by
        rw [← hrow, hid] at hr'
        exact (Option.some.inj (Option.some.inj hr'.2)).symm
      rw [if_pos hrow, if_pos hsame, if_pos (h.length ▸ hlt), hsame]
      rfl
    · have hother : r.1 ≠ fragmentId := by
        intro hsame
        have hget' := Dict.get?_eq_some_iff.mpr hr
        rw [hsame, hget] at hget'
        exact hrow (Option.some.inj hget')
      rw [if_neg hrow, if_neg hother, List.getD_eq_getElem?_getD]

theorem holds_add (h : p.Holds d) (fragmentId : String) (vector : List ρ) :
    (p.add fragmentId vector).Holds (d.set fragmentId vector) := by
  rw [add]
  cases hget : p.pos.get? fragmentId with
  | some row => exact holds_overwrite h hget vector
  | none =>
      have hfresh : ∀ i ∈ [fragmentId], i ∉ d.keys := by
        intro i hi
        rw [List.mem_singleton.mp hi, ← keys_of_holds h]
        exact Dict.get?_eq_none_iff.mp hget
      have hroom : _ ∧ _ ∧ p.ids.length + 1 ≤ _ :=
        holds_makeRoom h (Nat.le_refl (p.ids.length + 1))
          (fun hfull : ¬ p.ids.length ≥ p.capacity => by omega) (by omega)
      obtain ⟨hq, hids, hcapacity⟩ := hroom
      have happend : NumpyPartition.Holds _ (d.updateAll ([fragmentId].zip [vector])) :=
        holds_append hq rfl (by rw [hids]; exact hcapacity) hfresh (List.nodup_singleton _)
      rw [hids] at happend
      exact happend

theorem holds_addMatrix (h : p.Holds d) {ids : List String} {rows : List (List ρ)}
    (hlength : rows.length = ids.length) (hfresh : ∀ fragmentId ∈ ids, fragmentId ∉ d.keys)
    (hnodup : ids.Nodup) (expected : Nat) :
    (p.addMatrix ids rows expected).Holds (d.updateAll (ids.zip rows)) := by
  have hroom : _ ∧ _ ∧ p.ids.length + ids.length ≤ _ :=
    holds_makeRoom h (Nat.le_max_left (p.ids.length + ids.length) expected)
      (fun hfull : ¬ p.ids.length + ids.length > p.capacity => by omega) (by omega)
  obtain ⟨hq, hids, hcapacity⟩ := hroom
  have happend := holds_append hq hlength (by rw [hids]; exact hcapacity) hfresh hnodup
  rw [hids] at happend
  exact happend

theorem holds_compact (h : p.Holds d) : p.compact.Holds d := by
  have hids : p.compact.ids = p.pos.keys.map some := by
    rw [compact, Dict.keys, List.map_map]
    rfl
  have hlength : p.compact.matrix.length = p.pos.keys.length := by
    rw [compact, Dict.keys, List.length_map, List.length_map]
  have hpos : p.compact.pos.rows = p.pos.keys.zipIdx := by
    show (Dict.updateAll .empty p.pos.keys.zipIdx).rows = _
    rw [Dict.rows_updateAll (fun _ _ => List.not_mem_nil), Table.rows_empty, List.nil_append]
    rw [List.zipIdx_map_fst]
    exact p.pos.nodup_keys
  have hfits : p.compact.ids.length ≤ p.compact.capacity := by
    rw [hids, List.length_map, Dict.keys, List.length_map]
    exact le_roomFor _
  have halive : p.compact.ids.map Option.isNone = List.replicate p.compact.ids.length false := by
    rw [hids, List.map_map, List.length_map]
    exact List.map_const'
  refine ⟨⟨?_, hfits, ?_, ?_, ?_, fun _ => rfl⟩, ?_⟩
  · rw [hlength, hids, List.length_map]
  · rw [hpos, hids, occupiedRows_some]
  · rw [deadMask_of_none rfl, halive, List.replicate_append_replicate]
    congr 1
    omega
  · rw [hids, List.count_eq_zero_of_not_mem (by simp)]
    rfl
  · have hmatrix : p.compact.matrix = p.pos.rows.map fun r => p.matrix.getD r.2 [] := rfl
    have hzip := map_zipIdx_append [] hlength
    rw [List.length_nil, List.nil_append] at hzip
    rw [items, hpos, hzip, hmatrix, Dict.keys, List.zip_map', ← h.items]
    rfl

theorem holds_remove (h : p.Holds d) (fragmentId : String) :
    (p.remove fragmentId).Holds (d.pop fragmentId) := by
  rw [remove]
  cases hget : p.pos.get? fragmentId with
  | none =>
      have habsent : fragmentId ∉ d.keys := by
        rw [← keys_of_holds h]
        exact Dict.get?_eq_none_iff.mp hget
      rwa [Dict.pop_of_not_mem habsent]
  | some row =>
      obtain ⟨hid, hlt⟩ := h.toSound.getElem?_of_get? hget
      -- the place of the id is its row
      have hplace : ∀ r ∈ p.pos.rows, r.1 ≠ fragmentId ↔ r.2 ≠ row := by
        intro r hr
        have hr' := hr
        rw [h.pos, mem_occupiedRows, Nat.sub_zero] at hr'
        refine not_congr ⟨fun hsame => ?_, fun hsame => ?_⟩
        · have hget' := Dict.get?_eq_some_iff.mpr hr
          rw [hsame, hget] at hget'
          exact (Option.some.inj hget').symm
        · rw [hsame, hid] at hr'
          exact (Option.some.inj (Option.some.inj hr'.2)).symm
      have hmask := h.length_deadMask
      have hmarked : (
          { p with
            pos := p.pos.pop fragmentId
            dead := some (p.deadMask.set row true)
            ids := p.ids.set row none
            deadCount := p.deadCount + 1 } : NumpyPartition ρ).Holds (d.pop fragmentId) := by
        refine ⟨⟨?_, ?_, ?_, ?_, ?_, ?_⟩, ?_⟩
        · rw [List.length_set]
          exact h.length
        · rw [List.length_set]
          exact h.fits
        · rw [Dict.rows_pop, occupiedRows_set_none, ← h.pos, Nat.zero_add]
          exact List.filter_congr fun r hr => decide_eq_decide.mpr (hplace r hr)
        · rw [deadMask_of_some rfl, List.length_set, List.length_set, hmask, Nat.sub_self,
            List.replicate_zero, List.append_nil, h.mask, List.set_append_left _ _
              (by rwa [List.length_map]), List.map_set]
          rfl
        · have hat : p.ids[row] = some fragmentId :=
            Option.some.inj ((List.getElem?_eq_getElem hlt).symm.trans hid)
          rw [List.count_set hlt, hat, h.deadCount]
          simp
        · rintro ⟨⟩
        · rw [items, Dict.rows_pop, Dict.rows_pop, ← h.items, items, List.filter_map]
          rfl
      show NumpyPartition.Holds (if _ > _ then NumpyPartition.compact _ else _) _
      split
      · exact holds_compact hmarked
      · exact hmarked

end NumpyPartition

namespace NumpyPartition

variable {p : NumpyPartition ρ}

theorem Sound.holds (h : p.Sound) : p.Holds p.toDict where
  toSound := h
  items := rfl

theorem toDict_of_holds {d : Dict String (List ρ)} (h : p.Holds d) : p.toDict = d :=
  Table.ext h.items

end NumpyPartition

namespace Partition

def Sound : Partition ρ → Prop
  | .python _ => True
  | .numpy p => p.Sound

variable {q : Partition ρ}

theorem Sound.add (h : q.Sound) (fragmentId : String) (vector : List ρ) :
    (q.add fragmentId vector).Sound ∧
      (q.add fragmentId vector).toDict = q.toDict.set fragmentId vector := by
  cases q with
  | python vectors => exact ⟨trivial, rfl⟩
  | numpy p =>
      have hholds := NumpyPartition.holds_add (NumpyPartition.Sound.holds h) fragmentId vector
      exact ⟨hholds.toSound, NumpyPartition.toDict_of_holds hholds⟩

theorem Sound.remove (h : q.Sound) (fragmentId : String) :
    (q.remove fragmentId).Sound ∧ (q.remove fragmentId).toDict = q.toDict.pop fragmentId := by
  cases q with
  | python vectors => exact ⟨trivial, rfl⟩
  | numpy p =>
      have hholds := NumpyPartition.holds_remove (NumpyPartition.Sound.holds h) fragmentId
      exact ⟨hholds.toSound, NumpyPartition.toDict_of_holds hholds⟩

theorem ids_eq (q : Partition ρ) : q.ids = q.toDict.keys := by
  cases q with
  | python vectors => rfl
  | numpy p => exact (Dict.keys_mapValues _).symm

theorem size_eq (q : Partition ρ) : q.size = q.toDict.size := by
  cases q with
  | python vectors => rfl
  | numpy p => exact (List.length_map _).symm

theorem get_eq (q : Partition ρ) (fragmentId : String) :
    q.get fragmentId = q.toDict.get? fragmentId := by
  cases q with
  | python vectors => rfl
  | numpy p => exact (Dict.get?_mapValues _ fragmentId).symm

end Partition

end MarkSdk
