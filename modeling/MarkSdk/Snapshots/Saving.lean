import MarkSdk.Snapshots.Tables

/-!
What a save writes is what a load reads.

A save cuts the ids and the matrix into parts alike, and a load puts each part
together by the places of the rows. Ids without line breaks come back as they
were (`pairs_saveSnapshot`), and the notes of what has changed since take out
their own ids and no others (`pairs_load`).
-/

namespace MarkSdk

open Lib

/-- All pairs of the snapshot, noted or not. -/
def VectorSnapshot.pairs (snapshot : VectorSnapshot) : List (String × List ℚ) :=
  snapshot.parts.flatMap fun part => vectorPairs snapshot.dim (splitLines part.1, part.2)

/-- Every blob has a row for each id. -/
def VectorSnapshot.Fits (snapshot : VectorSnapshot) : Prop :=
  ∀ part ∈ snapshot.parts, FitsRows snapshot.dim part

/-- A load leaves the noted ids out. -/
theorem pairs_load {snapshot : VectorSnapshot} (h : snapshot.Fits) (dirty : List String) :
    (snapshot.parts.map (VectorFile.snapshotRow dirty snapshot.dim)).flatMap
        (vectorPairs snapshot.dim) =
      snapshot.pairs.filter fun r => r.1 ∉ dirty := by
  unfold VectorSnapshot.pairs VectorSnapshot.Fits at *
  rw [List.flatMap_map]
  generalize snapshot.parts = parts at h ⊢
  induction parts with
  | nil => rfl
  | cons part parts ih =>
      rw [List.flatMap_cons, List.flatMap_cons, List.filter_append,
        vectorPairs_snapshotRow (h part List.mem_cons_self),
        ih fun p hp => h p (List.mem_cons_of_mem part hp)]

/-! ### The parts of a save -/

section Parts

variable {size m : Nat}

/-- `range(0, m, size)` has a part for each row. -/
theorem le_size_mul_parts (hsize : 0 < size) : m ≤ size * ((m + size - 1) / size) := by
  have hdiv := Nat.div_add_mod (m + size - 1) size
  have hmod := Nat.mod_lt (m + size - 1) hsize
  omega

/-- A part starts within the rows. -/
theorem size_mul_lt {part : Nat} (hsize : 0 < size) (hpart : part < (m + size - 1) / size) :
    size * part < m := by
  have hle := (Nat.le_div_iff_mul_le hsize).mp (Nat.succ_le_of_lt hpart)
  rw [Nat.succ_mul, Nat.mul_comm part size] at hle
  omega

theorem sliceAt_ne_nil {α : Type} {xs : List α} {part : Nat} (hsize : 0 < size)
    (hpart : size * part < xs.length) : sliceAt size xs part ≠ [] := by
  rw [← List.length_pos_iff]
  unfold sliceAt
  rw [List.length_take, List.length_drop]
  omega

theorem zipIdx_map_range {α : Type} (f : Nat → α) (n : Nat) :
    ((List.range n).map f).zipIdx = (List.range n).map fun k => (f k, k) := by
  rw [List.zipIdx_eq_zip_range', List.length_map, List.length_range, ← List.range_eq_range']
  have hzip : ((List.range n).map f).zip ((List.range n).map fun k => k) =
      (List.range n).map fun k => (f k, k) := List.zip_map'
  rwa [List.map_id'] at hzip

end Parts

section Saved

variable {partRows dim : Nat} {ids : List String} {matrix : List (List ℚ)}

/-- The parts that a save of a matrix writes. -/
def savedParts (partRows : Nat) (ids : List String) (matrix : List (List ℚ)) :
    List (String × List ℚ) :=
  (VectorFile.matrixParts partRows matrix).zipIdx.map fun part =>
    (joinLines (sliceAt partRows ids part.2), part.1)

theorem savedParts_eq (partRows : Nat) (ids : List String) (matrix : List (List ℚ)) :
    savedParts partRows ids matrix =
      (List.range ((matrix.length + partRows - 1) / partRows)).map fun k =>
        (joinLines (sliceAt partRows ids k), (sliceAt partRows matrix k).flatten) := by
  unfold savedParts VectorFile.matrixParts
  rw [zipIdx_map_range, List.map_map]
  rfl

variable (hpartRows : 0 < partRows) (hlength : ids.length = matrix.length)
  (hlines : ∀ id ∈ ids, '\n' ∉ id.toList) (hwidth : ∀ row ∈ matrix, row.length = dim)

include hpartRows hlength hlines

/-- The ids of a part are read back. -/
theorem splitLines_part {k : Nat} (hk : k < (matrix.length + partRows - 1) / partRows) :
    splitLines (joinLines (sliceAt partRows ids k)) = sliceAt partRows ids k := by
  refine splitLines_joinLines_of_lines ?_ fun id hid => hlines id (mem_of_mem_sliceAt hid)
  refine sliceAt_ne_nil hpartRows ?_
  rw [hlength]
  exact size_mul_lt hpartRows hk

include hwidth

theorem fitsRows_savedParts : ∀ part ∈ savedParts partRows ids matrix, FitsRows dim part := by
  intro part hpart
  rw [savedParts_eq, List.mem_map] at hpart
  obtain ⟨k, hk, rfl⟩ := hpart
  have hrows : (sliceAt partRows matrix k).flatten.length =
      dim * (sliceAt partRows matrix k).length :=
    length_flatten_of_width fun row hrow => hwidth row (mem_of_mem_sliceAt hrow)
  unfold FitsRows
  dsimp only
  rw [hrows, splitLines_part hpartRows hlength hlines (List.mem_range.mp hk)]
  unfold sliceAt
  rw [List.length_take, List.length_drop, List.length_take, List.length_drop, hlength]

/-- The parts together are the ids with their rows. -/
theorem pairs_savedParts :
    ((savedParts partRows ids matrix).flatMap fun part =>
      vectorPairs dim (splitLines part.1, part.2)) = ids.zip matrix := by
  have hpart : ∀ k ∈ List.range ((matrix.length + partRows - 1) / partRows),
      vectorPairs dim (splitLines (joinLines (sliceAt partRows ids k)),
        (sliceAt partRows matrix k).flatten) = sliceAt partRows (ids.zip matrix) k := by
    intro k hk
    rw [splitLines_part hpartRows hlength hlines (List.mem_range.mp hk), ← zip_sliceAt]
    have hsame : (sliceAt partRows ids k).length = (sliceAt partRows matrix k).length := by
      unfold sliceAt
      rw [List.length_take, List.length_drop, List.length_take, List.length_drop, hlength]
    unfold vectorPairs
    dsimp only
    rw [hsame, map_sliceAt_flatten fun row hrow => hwidth row (mem_of_mem_sliceAt hrow)]
  have hcover : (ids.zip matrix).length ≤
      partRows * ((matrix.length + partRows - 1) / partRows) := by
    rw [List.length_zip, hlength, Nat.min_self]
    exact le_size_mul_parts hpartRows
  rw [savedParts_eq, List.flatMap_map, List.flatMap_congr hpart, flatMap_sliceAt hcover]

end Saved

/-! ### A save -/

def VectorIndex.vectorsOf (index : VectorIndex ℚ) (agentId : String) : List (String × List ℚ) :=
  ((index.held.get? (some agentId)).map Table.rows).getD []

/-- A save is refused and changes nothing, or it replaces the snapshot of the agent by
what the index holds for it, and takes the notes of the agent out. -/
theorem saveSnapshot_cases (ftsEnabled : Bool) {partRows : Nat} (hpartRows : 0 < partRows)
    (agentId fingerprint : String) (version : Int) {index : VectorIndex ℚ} (file : VectorFile)
    (hsound : index.Sound) (huniform : index.Uniform) :
    file.saveSnapshot ftsEnabled partRows agentId fingerprint version index = (false, file) ∨
      ∃ snapshot : VectorSnapshot,
        file.saveSnapshot ftsEnabled partRows agentId fingerprint version index =
          (true, { file.dropVectorSnapshot agentId with
            snapshots := Function.update file.snapshots agentId (some snapshot) }) ∧
        file.writeVersion = version ∧ snapshot.fingerprint = fingerprint ∧
        ((∀ r ∈ index.vectorsOf agentId, '\n' ∉ r.1.toList) →
          snapshot.Fits ∧ snapshot.pairs = index.vectorsOf agentId) := by
  unfold VectorFile.saveSnapshot
  cases hexport : index.exportRows (some agentId) with
  | none => exact .inl rfl
  | some exported =>
      obtain ⟨ids, matrix⟩ := exported
      obtain ⟨d, hheld, -, rfl, hmatrix, hwidth⟩ :=
        VectorIndex.exportRows_spec hsound huniform hexport
      have hvectors : index.vectorsOf agentId = d.rows := by
        unfold VectorIndex.vectorsOf
        rw [hheld]
        rfl
      dsimp only
      split
      · exact .inl rfl
      · unfold VectorFile.saveVectorSnapshot
        split
        · exact .inl rfl
        · rename_i haccepted
          rw [not_or, Decidable.not_not, Decidable.not_not] at haccepted
          refine .inr ⟨⟨fingerprint, VectorIndex.width matrix, (d.rows.map Prod.fst).length,
            savedParts partRows (d.rows.map Prod.fst) matrix⟩, ?_, haccepted.2, rfl,
            fun hlines => ?_⟩
          · unfold VectorFile.dropVectorSnapshot
            dsimp only
            rw [Function.update_idem]
            rfl
          · rw [hvectors] at hlines ⊢
            have hids : ∀ id ∈ d.rows.map Prod.fst, '\n' ∉ id.toList := by
              intro id hid
              obtain ⟨r, hr, rfl⟩ := List.mem_map.mp hid
              exact hlines r hr
            have hlength : (d.rows.map Prod.fst).length = matrix.length := by
              rw [hmatrix, List.length_map, List.length_map]
            refine ⟨fitsRows_savedParts hpartRows hlength hids hwidth, ?_⟩
            refine (pairs_savedParts hpartRows hlength hids hwidth).trans ?_
            rw [hmatrix, List.zip_map']
            exact List.map_id' d.rows

end MarkSdk
