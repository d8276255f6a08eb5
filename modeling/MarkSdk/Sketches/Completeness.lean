import MarkSdk.Lib.MapM
import MarkSdk.Lib.Runs
import MarkSdk.Sketches.Candidates

/-!
Which searches of an encrypted store find every row.

`_sketch_written` runs before the transaction commits. When it rolls back, the
sketch that a process has for a row is that of a text that the row never got,
and a scan that is still up to date does not look at the stamp again. A rollback
does no harm when the row is in no such scan, or when its own words are all in
the text that was not stored (`SketchStep.Harmless`). Along runs without harm no
row is missed (`sketchCandidates_complete`).
-/

namespace MarkSdk

open Lib

/-! ### What a sketch is good for -/

namespace SketchHost

variable (host : SketchHost) (writes : List SealedWrite)

/-- No two writes of different texts end in the same 16 bytes. -/
def DistinctStamps : Prop :=
  ∀ w ∈ writes, ∀ v ∈ writes, stampOf (w.content host) = stampOf (v.content host) →
    w.fragment.content = v.fragment.content

/-- The row has the ciphertext of one of the writes. -/
def Written (row : SealedRow) : Prop := ∃ w ∈ writes, row.content = w.content host

/-- The sketch was made from one of the writes. -/
def Genuine (sketch : Sketch) : Prop :=
  ∃ w ∈ writes, sketch = host.sketchOf (w.content host) w.fragment.content

/-- The row is not missed with this sketch. -/
def Covers (sketch : Sketch) (row : SealedRow) : Prop :=
  ∀ text, host.opened row.content = some text → ∀ tokens, tokens ⊆ sketchTokens host.py text →
    sketch.bits &&& host.sketcher.query tokens = host.sketcher.query tokens

variable {host writes}

theorem opened_content (hfernet : host.fernet.Lawful) (hprovider : host.provider.WellFormed)
    (w : SealedWrite) : host.opened (w.content host) = some w.fragment.content := by
  have h := decryptStr_encryptStr hfernet hprovider w.moment w.fragment.content
  unfold EncryptionProvider.encryptStr at h
  unfold opened SealedWrite.content sealed
  rw [h]
  rfl

/-- A text with all words of the row has all of their bits. -/
theorem covers_of_subset {content : ByteArray} {text : String} {row : SealedRow}
    (h : ∀ own, host.opened row.content = some own →
      sketchTokens host.py own ⊆ sketchTokens host.py text) :
    host.Covers (host.sketchOf content text) row :=
  fun own hown _ htokens =>
    TokenSketcher.sketch_covers (List.Subset.trans htokens (h own hown))

/-- A sketch with the stamp of the row was made from its text. -/
theorem Genuine.covers (hfernet : host.fernet.Lawful) (hprovider : host.provider.WellFormed)
    (hdistinct : host.DistinctStamps writes) {sketch : Sketch} {row : SealedRow}
    (hsketch : host.Genuine writes sketch) (hrow : host.Written writes row)
    (hstamp : sketch.stamp = stampOf row.content) : host.Covers sketch row := by
  obtain ⟨w, hw, rfl⟩ := hsketch
  obtain ⟨v, hv, hcontent⟩ := hrow
  refine covers_of_subset fun own hown => ?_
  rw [hcontent, opened_content hfernet hprovider, Option.some.injEq] at hown
  rw [hcontent] at hstamp
  rw [hdistinct w hw v hv hstamp, hown]
  exact fun _ h => h

theorem genuine_sketchRow (hfernet : host.fernet.Lawful) (hprovider : host.provider.WellFormed)
    {row : SealedRow} (hrow : host.Written writes row) :
    host.Genuine writes (host.sketchRow row) ∧
      (host.sketchRow row).stamp = stampOf row.content := by
  obtain ⟨w, hw, hcontent⟩ := hrow
  unfold sketchRow
  rw [hcontent, opened_content hfernet hprovider]
  exact ⟨⟨w, hw, rfl⟩, rfl⟩

end SketchHost

/-! ### The invariant -/

open SketchHost

section Invariant

variable (host : SketchHost) (writes : List SealedWrite)

/-- The rows are in the order of their rowids, and the writes made them and the
sketches. -/
structure SketchFile.Sound (file : SketchFile) : Prop where
  written : ∀ row ∈ file.rows, host.Written writes row
  ascending : file.rows.Pairwise fun row next => row.rowid < next.rowid
  genuine : ∀ sketches ∈ file.sketches, ∀ rowid, ∀ sketch ∈ sketches rowid,
    host.Genuine writes sketch

/-- A scan lists rows that have a sketch. As long as it is up to date it lists
all of the rows that count, and their sketches cover them. -/
structure SketchMemory.Sound (file : SketchFile) (now : Int) (memory : SketchMemory) : Prop where
  genuine : ∀ rowid, ∀ sketch ∈ memory.sketches rowid, host.Genuine writes sketch
  version_le : ∀ scan ∈ memory.scans, scan.2.1 ≤ file.writeVersion
  sketched : ∀ scan ∈ memory.scans, ∀ rowid ∈ scan.2.2, (memory.sketches rowid).isSome
  lists : ∀ scan ∈ memory.scans, scan.2.1 = file.writeVersion →
    ∀ row ∈ matching file now scan.1, row.rowid ∈ scan.2.2
  covers : ∀ scan ∈ memory.scans, scan.2.1 = file.writeVersion →
    ∀ row ∈ file.rows, row.rowid ∈ scan.2.2 →
      ∀ sketch ∈ memory.sketches row.rowid, host.Covers sketch row

structure SketchState.Sound (s : SketchState) : Prop where
  file : s.file.Sound host writes
  memory : ∀ p, (s.memory p).Sound host writes s.file s.now

variable {host writes}

theorem SketchMemory.Sound.empty {file : SketchFile} {now : Int} :
    SketchMemory.empty.Sound host writes file now where
  genuine := fun _ _ h => by cases h
  version_le := fun _ h => by cases h
  sketched := fun _ h => by cases h
  lists := fun _ h => by cases h
  covers := fun _ h => by cases h

theorem SketchFile.Sound.empty : SketchFile.empty.Sound host writes where
  written := fun _ h => by cases h
  ascending := List.Pairwise.nil
  genuine := fun _ h => by cases h

theorem SketchState.Sound.start (now : Int) : (SketchState.start now).Sound host writes :=
  ⟨.empty, fun _ => .empty⟩

/-- A structural commit puts every scan out of date. -/
theorem SketchMemory.Sound.of_version_lt {file after : SketchFile} {now : Int}
    {memory : SketchMemory} (h : memory.Sound host writes file now)
    (hlt : file.writeVersion < after.writeVersion) : memory.Sound host writes after now where
  genuine := h.genuine
  version_le := fun scan hscan => (h.version_le scan hscan).trans hlt.le
  sketched := h.sketched
  lists := fun scan hscan hversion => absurd (h.version_le scan hscan) (by omega)
  covers := fun scan hscan hversion => absurd (h.version_le scan hscan) (by omega)

/-- Scans stay good while every row keeps its content and the columns that
filters look at. -/
theorem SketchMemory.Sound.of_sameScope {file after : SketchFile} {now later : Int}
    {memory : SketchMemory} (h : memory.Sound host writes file now) (hnow : now ≤ later)
    (hversion : after.writeVersion = file.writeVersion) (hblocks : after.blocks = file.blocks)
    (hrows : ∀ row ∈ after.rows, ∃ old ∈ file.rows, row.rowid = old.rowid ∧
      row.content = old.content ∧ row.columns.SameScope old.columns) :
    memory.Sound host writes after later where
  genuine := h.genuine
  version_le := by rw [hversion]; exact h.version_le
  sketched := h.sketched
  lists := by
    intro scan hscan hcurrent row hrow
    obtain ⟨hrow, hcounts⟩ := List.mem_filter.mp hrow
    obtain ⟨old, hold, hrowid, -, hsame⟩ := hrows row hrow
    rw [Bool.and_eq_true, hsame.meets, hsame.ttlLive, hblocks] at hcounts
    rw [hrowid]
    refine h.lists scan hscan (hcurrent.trans hversion) old (List.mem_filter.mpr ⟨hold, ?_⟩)
    rw [Bool.and_eq_true]
    exact ⟨hcounts.1, ttlLive_earlier hnow hcounts.2⟩
  covers := by
    intro scan hscan hcurrent row hrow hlisted sketch hsketch
    obtain ⟨old, hold, hrowid, hcontent, -⟩ := hrows row hrow
    rw [hrowid] at hlisted hsketch
    unfold SketchHost.Covers
    rw [hcontent]
    exact h.covers scan hscan (hcurrent.trans hversion) old hold hlisted sketch hsketch

end Invariant

/-! ### Writes that encrypt nothing -/

section Changes

variable {host : SketchHost} {writes : List SealedWrite} {file : SketchFile}

/-- Rows that are changed in place keep the file sound. -/
theorem SketchFile.Sound.map (h : file.Sound host writes) {f : SealedRow → SealedRow}
    (hrowid : ∀ row, (f row).rowid = row.rowid)
    (hcontent : ∀ row ∈ file.rows, host.Written writes (f row)) :
    SketchFile.Sound host writes { file with rows := file.rows.map f } where
  written := by
    intro row hrow
    obtain ⟨old, hold, rfl⟩ := List.mem_map.mp hrow
    exact hcontent old hold
  ascending := by
    rw [List.pairwise_map]
    simpa only [hrowid] using h.ascending
  genuine := h.genuine

theorem SealedChange.apply_sound (h : file.Sound host writes) (c : SealedChange) :
    (c.apply file).Sound host writes := by
  cases c with
  | update u =>
      have hmap := h.map (f := fun r =>
        if u.which r.columns then { r with columns := u.change r.columns } else r)
        (fun row => by split <;> rfl)
        (fun row hrow => by split <;> exact h.written row hrow)
      show SketchFile.Sound host writes (if u.structural then bump _ else _)
      split
      · exact ⟨hmap.written, hmap.ascending, hmap.genuine⟩
      · exact hmap
  | delete which =>
      refine ⟨fun row hrow => h.written row (List.mem_filter.mp hrow).1, h.ascending.filter _, ?_⟩
      intro sketches hsketches rowid sketch hsketch
      obtain ⟨old, hold, rfl⟩ := Option.mem_map.mp hsketches
      dsimp only at hsketch
      split at hsketch
      · cases hsketch
      · exact h.genuine old hold rowid sketch hsketch
  | storeBlock block => exact ⟨h.written, h.ascending, h.genuine⟩
  | other => exact ⟨h.written, h.ascending, h.genuine⟩

theorem SealedChange.memory_sound {now : Int} {memory : SketchMemory}
    (h : memory.Sound host writes file now) (c : SealedChange) :
    memory.Sound host writes (c.apply file) now := by
  cases c with
  | update u =>
      cases hstructural : u.structural with
      | true =>
          refine h.of_version_lt ?_
          simp [SealedChange.apply, hstructural, bump]
      | false =>
          refine h.of_sameScope le_rfl ?_ ?_ ?_
          · simp [SealedChange.apply, hstructural]
          · simp [SealedChange.apply, hstructural]
          · intro row hrow
            simp only [SealedChange.apply, hstructural, Bool.false_eq_true, if_false,
              List.mem_map] at hrow
            obtain ⟨old, hold, rfl⟩ := hrow
            refine ⟨old, hold, ?_⟩
            split
            · exact ⟨rfl, rfl, u.scope_eq hstructural old.columns⟩
            · exact ⟨rfl, rfl, .refl old.columns⟩
  | delete which => exact h.of_version_lt (Int.lt_succ file.writeVersion)
  | storeBlock block => exact h.of_version_lt (Int.lt_succ file.writeVersion)
  | other => exact h.of_version_lt (Int.lt_succ file.writeVersion)

end Changes

/-! ### Stores -/

section Stores

variable {host : SketchHost} {writes : List SealedWrite} {file after : SketchFile}

theorem lt_nextRowid {rows : List SealedRow} {row : SealedRow} (h : row ∈ rows) :
    row.rowid < nextRowid rows := by
  have hfold : ∀ (rowids : List Nat) (start n : Nat), n = start ∨ n ∈ rowids →
      n ≤ rowids.foldl max start := by
    intro rowids
    induction rowids with
    | nil => simp
    | cons first rowids ih =>
        intro start n hn
        rw [List.foldl_cons]
        obtain rfl | hn := hn
        · exact (Nat.le_max_left n first).trans (ih _ _ (.inl rfl))
        · obtain rfl | hn := List.mem_cons.mp hn
          · exact (Nat.le_max_right start n).trans (ih _ _ (.inl rfl))
          · exact ih _ n (.inr hn)
  exact Nat.lt_succ_of_le (hfold _ 0 _ (.inr (List.mem_map_of_mem h)))

/-- A row that is stored is the only one that changes. -/
theorem storeRow_sound (h : file.Sound host writes) {w : SealedWrite} (hw : w ∈ writes)
    {rowid : Nat} (hstore : host.storeRow w file = .ok (after, rowid)) :
    after.Sound host writes ∧ after.writeVersion = file.writeVersion := by
  unfold SketchHost.storeRow at hstore
  split at hstore
  · split at hstore
    · cases hstore
    · cases hstore
      refine ⟨h.map (fun row => ?_) fun row hrow => ?_, rfl⟩
      · split <;> rfl
      · split
        · exact ⟨w, hw, rfl⟩
        · exact h.written row hrow
  · cases hstore
    refine ⟨⟨?_, ?_, h.genuine⟩, rfl⟩
    · intro row hrow
      obtain hrow | hrow := List.mem_append.mp hrow
      · exact h.written row hrow
      · rw [List.mem_singleton.mp hrow]
        exact ⟨w, hw, rfl⟩
    · refine List.pairwise_append.mpr ⟨h.ascending, List.pairwise_singleton _ _, ?_⟩
      intro row hrow new hnew
      rw [List.mem_singleton.mp hnew]
      exact lt_nextRowid hrow

theorem storeRows_sound {ws : List SealedWrite} (h : file.Sound host writes)
    (hws : ∀ w ∈ ws, w ∈ writes) (hstore : (host.storeRows ws file).2 = .ok after) :
    after.Sound host writes ∧ after.writeVersion = file.writeVersion := by
  induction ws generalizing file with
  | nil =>
      cases hstore
      exact ⟨h, rfl⟩
  | cons w ws ih =>
      unfold storeRows at hstore
      split at hstore
      · cases hstore
      · rename_i between rowid hrow
        obtain ⟨hsound, hversion⟩ := storeRow_sound h (hws w List.mem_cons_self) hrow
        have hrest := ih hsound (fun v hv => hws v (List.mem_cons_of_mem w hv)) hstore
        exact ⟨hrest.1, hrest.2.trans hversion⟩

/-- What the loop has written, it was given. -/
theorem mem_of_mem_storeRows {ws : List SealedWrite} {entry : Nat × SealedWrite}
    (h : entry ∈ (host.storeRows ws file).1) : entry.2 ∈ ws := by
  induction ws generalizing file with
  | nil => cases h
  | cons w ws ih =>
      unfold storeRows at h
      split at h
      · cases h
      · obtain rfl | h := List.mem_cons.mp h
        · exact List.mem_cons_self
        · exact List.mem_cons_of_mem w (ih h)

/-- What a transaction wrote last to the row. -/
def lastWritten (written : List (Nat × SealedWrite)) (rowid : Nat) : Option SealedWrite :=
  written.reverse.lookup rowid

/-- The sketches after a transaction, whether it is kept or not. -/
theorem foldl_sketchWritten (written : List (Nat × SealedWrite)) (memory : SketchMemory) :
    written.foldl (fun memory e => host.sketchWritten e.1 e.2 memory) memory =
      { memory with
        known := memory.known.map fun known rowid =>
          match lastWritten written rowid with
          | some w => some (host.sketchOf (w.content host) w.fragment.content)
          | none => known rowid } := by
  induction written using List.reverseRecOn with
  | nil =>
      cases hknown : memory.known <;> simp [lastWritten, ← hknown]
  | append_singleton written e ih =>
      obtain ⟨last, w⟩ := e
      rw [List.foldl_append, ih, List.foldl_cons, List.foldl_nil]
      simp only [sketchWritten, Option.map_map]
      congr 2
      funext known rowid
      simp only [Function.comp_apply, Function.update_apply, lastWritten, List.reverse_append,
        List.reverse_singleton, List.singleton_append, List.lookup_cons]
      by_cases heq : rowid = last
      · simp [heq]
      · simp [heq, beq_false_of_ne heq]

theorem mem_of_lastWritten {written : List (Nat × SealedWrite)} {rowid : Nat} {w : SealedWrite}
    (h : lastWritten written rowid = some w) : (rowid, w) ∈ written := by
  obtain ⟨before, rest, hsplit, -⟩ := List.lookup_eq_some_iff.mp h
  rw [← List.mem_reverse, hsplit]
  exact List.mem_append_right before List.mem_cons_self

/-- A transaction gives a row the sketch of its last text, or leaves it as it
was. -/
theorem sketches_foldl (host : SketchHost) (written : List (Nat × SealedWrite))
    (memory : SketchMemory) (rowid : Nat) :
    let after := written.foldl (fun memory e => host.sketchWritten e.1 e.2 memory) memory
    after.sketches rowid = memory.sketches rowid ∨
      ∃ w, lastWritten written rowid = some w ∧
        after.sketches rowid = some (host.sketchOf (w.content host) w.fragment.content) := by
  rw [foldl_sketchWritten]
  cases hknown : memory.known with
  | none => exact .inl (by simp [SketchMemory.sketches, hknown])
  | some known =>
      cases hlast : lastWritten written rowid with
      | none => exact .inl (by simp [SketchMemory.sketches, hknown, hlast])
      | some w => exact .inr ⟨w, rfl, by simp [SketchMemory.sketches, hlast]⟩

/-- The sketches of a transaction do no harm where the scans that are up to date
list no row that is given a text without its own words. -/
theorem SketchMemory.Sound.foldl {now : Int} {memory : SketchMemory}
    (h : memory.Sound host writes file now) {written : List (Nat × SealedWrite)}
    (hwritten : ∀ e ∈ written, e.2 ∈ writes)
    (hharmless : ∀ scan ∈ memory.scans, scan.2.1 = file.writeVersion →
      ∀ row ∈ file.rows, row.rowid ∈ scan.2.2 → ∀ w ∈ lastWritten written row.rowid,
        ∀ own ∈ host.opened row.content,
          sketchTokens host.py own ⊆ sketchTokens host.py w.fragment.content) :
    (written.foldl (fun memory e => host.sketchWritten e.1 e.2 memory) memory).Sound
      host writes file now := by
  have hscans : (written.foldl (fun memory e => host.sketchWritten e.1 e.2 memory) memory).scans =
      memory.scans := by rw [foldl_sketchWritten]
  constructor
  · intro rowid sketch hsketch
    obtain hsame | ⟨w, hw, hnew⟩ := sketches_foldl host written memory rowid
    · exact h.genuine rowid sketch (hsame ▸ hsketch)
    · cases hnew.symm.trans hsketch
      exact ⟨w, hwritten _ (mem_of_lastWritten hw), rfl⟩
  · rw [hscans]
    exact h.version_le
  · rw [hscans]
    intro scan hscan rowid hrowid
    obtain hsame | ⟨w, -, hnew⟩ := sketches_foldl host written memory rowid
    · rw [hsame]
      exact h.sketched scan hscan rowid hrowid
    · rw [hnew]
      rfl
  · rw [hscans]
    exact h.lists
  · rw [hscans]
    intro scan hscan hcurrent row hrow hlisted sketch hsketch
    obtain hsame | ⟨w, hw, hnew⟩ := sketches_foldl host written memory row.rowid
    · exact h.covers scan hscan hcurrent row hrow hlisted sketch (hsame ▸ hsketch)
    · cases hnew.symm.trans hsketch
      exact covers_of_subset (hharmless scan hscan hcurrent row hrow hlisted w hw)

end Stores

/-! ### Searches -/

section Searches

variable {host : SketchHost} {writes : List SealedWrite} {file : SketchFile} {now : Int}
  {memory : SketchMemory}

theorem genuine_upToDate {known stored : Nat → Option Sketch} {row : SealedRow} {sketch : Sketch}
    (hknown : ∀ rowid, ∀ sketch ∈ known rowid, host.Genuine writes sketch)
    (hstored : ∀ rowid, ∀ sketch ∈ stored rowid, host.Genuine writes sketch)
    (h : upToDate known stored row = some sketch) :
    host.Genuine writes sketch ∧ sketch.stamp = stampOf row.content := by
  rw [upToDate, Option.orElse_eq_orElse, Option.orElse_eq_or, Option.or_eq_some_iff] at h
  obtain h | ⟨-, h⟩ := h
  · obtain ⟨hsketch, hstamp⟩ := Option.filter_eq_some_iff.mp h
    exact ⟨hknown _ _ hsketch, by simpa using hstamp⟩
  · obtain ⟨hsketch, hstamp⟩ := Option.filter_eq_some_iff.mp h
    exact ⟨hstored _ _ hsketch, by simpa using hstamp⟩

/-- What a search keeps for a row of its query is the sketch of the row. -/
theorem genuine_synced (hfernet : host.fernet.Lawful) (hprovider : host.provider.WellFormed)
    {known stored : Nat → Option Sketch} {row : SealedRow}
    (hknown : ∀ rowid, ∀ sketch ∈ known rowid, host.Genuine writes sketch)
    (hstored : ∀ rowid, ∀ sketch ∈ stored rowid, host.Genuine writes sketch)
    (hrow : host.Written writes row) :
    host.Genuine writes ((upToDate known stored row).getD (host.sketchRow row)) ∧
      ((upToDate known stored row).getD (host.sketchRow row)).stamp = stampOf row.content := by
  cases h : upToDate known stored row with
  | none => exact genuine_sketchRow hfernet hprovider hrow
  | some sketch => exact genuine_upToDate hknown hstored h

theorem listed_of_hit {clauses : List Clause} {hit : Int × List Nat}
    (hscan : (memory.scans.lookup clauses).filter (fun hit => hit.1 = file.writeVersion) =
      some hit) :
    host.listed file now clauses memory =
      (hit.2, file, { memory with known := some memory.sketches }) := by
  unfold listed
  rw [hscan]

theorem listed_of_miss {clauses : List Clause}
    (hscan : (memory.scans.lookup clauses).filter (fun hit => hit.1 = file.writeVersion) = none) :
    host.listed file now clauses memory =
      let rows := matching file now clauses
      let stored := file.sketches.getD fun _ => none
      (rows.map SealedRow.rowid,
        { file with
          sketches := file.sketches.map fun stored =>
            host.syncStored rows memory.sketches stored },
        { known := some (host.syncKnown rows memory.sketches stored)
          scans := (clauses, file.writeVersion, rows.map SealedRow.rowid) ::
            if memory.scans.length < 16 then memory.scans.filter fun e => e.1 ≠ clauses
            else [] }) := by
  unfold listed
  rw [hscan]

/-- The list of a query is a scan that is up to date. -/
theorem listed_mem_scans (host : SketchHost) (file : SketchFile) (now : Int)
    (clauses : List Clause) (memory : SketchMemory) :
    let found := host.listed file now clauses memory
    (clauses, file.writeVersion, found.1) ∈ found.2.2.scans := by
  cases hscan : (memory.scans.lookup clauses).filter fun hit => hit.1 = file.writeVersion with
  | none =>
      rw [listed_of_miss hscan]
      exact List.mem_cons_self
  | some hit =>
      rw [listed_of_hit hscan]
      obtain ⟨hlookup, hversion⟩ := Option.filter_eq_some_iff.mp hscan
      obtain ⟨before, rest, hsplit, -⟩ := List.lookup_eq_some_iff.mp hlookup
      have hentry : (clauses, file.writeVersion, hit.2) = (clauses, hit) := by
        rw [← of_decide_eq_true hversion]
      show _ ∈ memory.scans
      rw [hentry, hsplit]
      exact List.mem_append_right before List.mem_cons_self

theorem eq_of_rowid_eq (h : file.Sound host writes) {row other : SealedRow}
    (hrow : row ∈ file.rows) (hother : other ∈ file.rows) (heq : row.rowid = other.rowid) :
    row = other := by
  have hnodup : (file.rows.map SealedRow.rowid).Nodup := by
    rw [List.nodup_iff_pairwise_ne, List.pairwise_map]
    exact h.ascending.imp fun hlt => hlt.ne
  exact List.inj_on_of_nodup_map hnodup hrow hother heq

/-- The sketches after a search: those of the rows of the query are new, the
others are as they were. -/
theorem syncKnown_cases (host : SketchHost) (rows : List SealedRow)
    (known stored : Nat → Option Sketch) (rowid : Nat) :
    let after := host.syncKnown rows known stored
    (∃ row ∈ rows, row.rowid = rowid ∧
        after rowid = some ((upToDate known stored row).getD (host.sketchRow row))) ∨
      (rowid ∉ rows.map SealedRow.rowid ∧ after rowid = known rowid) := by
  intro after
  cases hfind : rows.find? fun r => r.rowid = rowid with
  | none =>
      refine .inr ⟨?_, by simp [after, syncKnown, hfind]⟩
      simpa using hfind
  | some row =>
      refine .inl ⟨row, List.mem_of_find?_eq_some hfind, ?_, by simp [after, syncKnown, hfind]⟩
      simpa using List.find?_some hfind

variable (hfernet : host.fernet.Lawful) (hprovider : host.provider.WellFormed)

include hfernet hprovider in
theorem syncStored_sound (h : file.Sound host writes) {rows : List SealedRow}
    (hrows : ∀ row ∈ rows, row ∈ file.rows) {known : Nat → Option Sketch} :
    SketchFile.Sound host writes
      { file with
        sketches := file.sketches.map fun stored => host.syncStored rows known stored } := by
  refine ⟨h.written, h.ascending, ?_⟩
  intro sketches hsketches rowid sketch hsketch
  obtain ⟨stored, hstored, rfl⟩ := Option.mem_map.mp hsketches
  unfold syncStored at hsketch
  split at hsketch
  · rename_i row hfind
    split at hsketch
    · cases hsketch
      have hrow := hrows row (List.mem_of_find?_eq_some hfind)
      exact (genuine_sketchRow hfernet hprovider (h.written row hrow)).1
    · exact h.genuine stored hstored rowid sketch hsketch
  · exact h.genuine stored hstored rowid sketch hsketch

theorem genuine_stored (h : file.Sound host writes) (rowid : Nat) :
    ∀ sketch ∈ (file.sketches.getD fun _ => none) rowid, host.Genuine writes sketch := by
  cases hsketches : file.sketches with
  | none => intro sketch hsketch; cases hsketch
  | some sketches => exact h.genuine sketches hsketches rowid

include hfernet hprovider in
/-- The sketches of the rows of the query are theirs after the search. -/
theorem SketchMemory.Sound.synced (hdistinct : host.DistinctStamps writes)
    (hfile : file.Sound host writes) (h : memory.Sound host writes file now)
    (clauses : List Clause) (scans : List (List Clause × (Int × List Nat)))
    (hscans : ∀ scan ∈ scans, scan ∈ memory.scans ∨
      scan = (clauses, file.writeVersion, (matching file now clauses).map SealedRow.rowid)) :
    SketchMemory.Sound host writes file now
      { known := some (host.syncKnown (matching file now clauses) memory.sketches
          (file.sketches.getD fun _ => none))
        scans := scans } := by
  set rows := matching file now clauses
  set stored := file.sketches.getD fun _ => none
  have hmem : ∀ row ∈ rows, row ∈ file.rows := fun row hrow => (List.mem_filter.mp hrow).1
  have hsynced : ∀ row ∈ rows, _ := fun row hrow =>
    genuine_synced hfernet hprovider h.genuine (genuine_stored hfile)
      (hfile.written row (hmem row hrow))
  constructor
  · intro rowid sketch hsketch
    obtain ⟨row, hrow, -, hnew⟩ | ⟨-, hold⟩ :=
      syncKnown_cases host rows memory.sketches stored rowid
    · cases hnew.symm.trans hsketch
      exact (hsynced row hrow).1
    · exact h.genuine rowid sketch (hold.symm.trans hsketch)
  · intro scan hscan
    obtain hscan | rfl := hscans scan hscan
    · exact h.version_le scan hscan
    · exact le_rfl
  · intro scan hscan rowid hrowid
    show (host.syncKnown rows memory.sketches stored rowid).isSome
    obtain ⟨row, -, -, hnew⟩ | ⟨hnot, hold⟩ :=
      syncKnown_cases host rows memory.sketches stored rowid
    · rw [hnew]
      rfl
    · obtain hscan | rfl := hscans scan hscan
      · rw [hold]
        exact h.sketched scan hscan rowid hrowid
      · exact absurd hrowid hnot
  · intro scan hscan hcurrent row hrow
    obtain hscan | rfl := hscans scan hscan
    · exact h.lists scan hscan hcurrent row hrow
    · exact List.mem_map_of_mem hrow
  · intro scan hscan hcurrent row hrow hlisted sketch hsketch
    obtain ⟨other, hother, heq, hnew⟩ | ⟨hnot, hold⟩ :=
      syncKnown_cases host rows memory.sketches stored row.rowid
    · cases hnew.symm.trans hsketch
      obtain rfl := eq_of_rowid_eq hfile (hmem other hother) hrow heq
      exact (hsynced other hother).1.covers hfernet hprovider hdistinct
        (hfile.written other hrow) (hsynced other hother).2
    · obtain hscan | rfl := hscans scan hscan
      · exact h.covers scan hscan hcurrent row hrow hlisted sketch (hold.symm.trans hsketch)
      · exact absurd hlisted hnot

include hfernet hprovider in
theorem listed_sound (hdistinct : host.DistinctStamps writes) (hfile : file.Sound host writes)
    (h : memory.Sound host writes file now) (clauses : List Clause) :
    let found := host.listed file now clauses memory
    found.2.1.Sound host writes ∧ found.2.2.Sound host writes found.2.1 now ∧
      found.2.1.rows = file.rows ∧ found.2.1.blocks = file.blocks ∧
      found.2.1.writeVersion = file.writeVersion := by
  cases hscan : (memory.scans.lookup clauses).filter fun hit => hit.1 = file.writeVersion with
  | some hit =>
      rw [listed_of_hit hscan]
      exact ⟨hfile, ⟨h.genuine, h.version_le, h.sketched, h.lists, h.covers⟩, rfl, rfl, rfl⟩
  | none =>
      rw [listed_of_miss hscan]
      have hrows : ∀ row ∈ matching file now clauses, row ∈ file.rows :=
        fun row hrow => (List.mem_filter.mp hrow).1
      refine ⟨syncStored_sound hfernet hprovider hfile hrows, ?_, rfl, rfl, rfl⟩
      have hsynced := h.synced hfernet hprovider hdistinct hfile clauses
        ((clauses, file.writeVersion, (matching file now clauses).map SealedRow.rowid) ::
          if memory.scans.length < 16 then memory.scans.filter fun e => e.1 ≠ clauses else [])
        fun scan hscan => by
          obtain rfl | hscan := List.mem_cons.mp hscan
          · exact .inr rfl
          · split at hscan
            · exact .inl (List.mem_filter.mp hscan).1
            · cases hscan
      exact hsynced.of_sameScope le_rfl rfl rfl
        fun row hrow => ⟨row, hrow, rfl, rfl, .refl row.columns⟩

end Searches

/-! ### Runs -/

section Runs

variable (host : SketchHost)

def SketchHost.rollsBack (ws : List SealedWrite) (fails : Bool) (file : SketchFile) : Bool :=
  fails || (host.storeRows ws file).2.toOption.isNone

theorem storeMany_of_rollsBack {host : SketchHost} {ws : List SealedWrite} {fails : Bool}
    {file : SketchFile} {memory : SketchMemory} (h : host.rollsBack ws fails file = true) :
    host.storeMany ws fails file memory =
      (file, (host.storeRows ws file).1.foldl
        (fun memory e => host.sketchWritten e.1 e.2 memory) memory) := by
  cases hstored : (host.storeRows ws file).2 with
  | error e => simp [SketchHost.storeMany, hstored]
  | ok after =>
      have hfails : fails = true := by
        simpa [SketchHost.rollsBack, hstored, Except.toOption] using h
      simp [SketchHost.storeMany, hstored, hfails]

theorem storeMany_of_commits {host : SketchHost} {ws : List SealedWrite} {fails : Bool}
    {file : SketchFile} (memory : SketchMemory) (h : host.rollsBack ws fails file = false) :
    ∃ after, (host.storeRows ws file).2 = .ok after ∧
      host.storeMany ws fails file memory =
        (bump after, (host.storeRows ws file).1.foldl
          (fun memory e => host.sketchWritten e.1 e.2 memory) memory) := by
  cases hstored : (host.storeRows ws file).2 with
  | error e => simp [SketchHost.rollsBack, hstored, Except.toOption] at h
  | ok after =>
      have hfails : fails = false := by
        simpa [SketchHost.rollsBack, hstored, Except.toOption] using h
      exact ⟨after, rfl, by simp [SketchHost.storeMany, hstored, hfails]⟩

/-- When the store rolls back, a row that a scan of the process lists, and the
scan is up to date, was last given a text with all words of its own. -/
def SketchStep.Harmless (step : SketchStep) (s : SketchState) : Prop :=
  match step with
  | .store p ws fails =>
      host.rollsBack ws fails s.file = true →
        ∀ scan ∈ (s.memory p).scans, scan.2.1 = s.file.writeVersion →
          ∀ row ∈ s.file.rows, row.rowid ∈ scan.2.2 →
            ∀ w ∈ lastWritten (host.storeRows ws s.file).1 row.rowid,
              ∀ own ∈ host.opened row.content,
                sketchTokens host.py own ⊆ sketchTokens host.py w.fragment.content
  | _ => True

/-- The writes of a step, committed or not. -/
def SketchStep.writes : SketchStep → List SealedWrite
  | .store _ ws _ => ws
  | _ => []

/-- A search has every row that counts, can be read and has all of the words. -/
def FindsAll (s : SketchState) (p : Nat) (clauses : List Clause) (tokens : List String) : Prop :=
  ∃ ids, host.sketchCandidates s.file s.now clauses tokens (s.memory p) = some ids ∧
    ∀ row ∈ matching s.file s.now clauses, ∀ own, host.opened row.content = some own →
      tokens ⊆ sketchTokens host.py own → row.rowid ∈ ids

variable {host} {writes : List SealedWrite} {s : SketchState}
  (hfernet : host.fernet.Lawful) (hprovider : host.provider.WellFormed)
  (hdistinct : host.DistinctStamps writes)

/-- A process that does something for itself leaves the others as they are. -/
theorem SketchState.Sound.update {file : SketchFile} {now : Int} {p : Nat}
    {others : Nat → SketchMemory} {memory : SketchMemory} (hfile : file.Sound host writes)
    (hothers : ∀ q, (others q).Sound host writes file now)
    (hmemory : memory.Sound host writes file now) :
    SketchState.Sound host writes ⟨file, Function.update others p memory, now⟩ := by
  refine ⟨hfile, fun q => ?_⟩
  show (Function.update others p memory q).Sound host writes file now
  by_cases hq : q = p
  · rw [hq, Function.update_self]
    exact hmemory
  · rw [Function.update_of_ne hq]
    exact hothers q

include hfernet hprovider hdistinct in
/-- What one step keeps. -/
theorem SketchStep.apply_sound (h : s.Sound host writes) {step : SketchStep}
    (hwrites : ∀ w ∈ step.writes, w ∈ writes) (hharmless : step.Harmless host s) :
    (step.apply host s).Sound host writes := by
  have hself : ∀ {rows : List SealedRow}, ∀ row ∈ rows, ∃ old ∈ rows, row.rowid = old.rowid ∧
      row.content = old.content ∧ row.columns.SameScope old.columns :=
    fun row hrow => ⟨row, hrow, rfl, rfl, .refl row.columns⟩
  cases step with
  | store p ws fails =>
      have hwritten : ∀ e ∈ (host.storeRows ws s.file).1, e.2 ∈ writes :=
        fun e he => hwrites e.2 (mem_of_mem_storeRows he)
      show SketchState.Sound host writes ⟨_, _, _⟩
      cases hback : host.rollsBack ws fails s.file with
      | true =>
          rw [storeMany_of_rollsBack hback]
          exact .update h.file h.memory ((h.memory p).foldl hwritten (hharmless hback))
      | false =>
          obtain ⟨after, hstored, hstore⟩ := storeMany_of_commits (s.memory p) hback
          rw [hstore]
          obtain ⟨hafter, hversion⟩ := storeRows_sound h.file hwrites hstored
          have hlt : s.file.writeVersion < (bump after).writeVersion := by
            rw [← hversion]
            exact Int.lt_succ after.writeVersion
          refine .update ⟨hafter.written, hafter.ascending, hafter.genuine⟩
            (fun q => (h.memory q).of_version_lt hlt)
            (((h.memory p).of_version_lt hlt).foldl hwritten fun scan hscan hcurrent => ?_)
          exact absurd ((h.memory p).version_le scan hscan) (by omega)
  | change c fails =>
      cases fails with
      | true => exact h
      | false => exact ⟨c.apply_sound h.file, fun q => c.memory_sound (h.memory q)⟩
  | persist enabled =>
      refine ⟨⟨h.file.written, h.file.ascending, ?_⟩,
        fun q => (h.memory q).of_sameScope le_rfl rfl rfl hself⟩
      intro sketches hsketches rowid
      cases enabled with
      | false => cases hsketches
      | true =>
          cases hsketches
          exact genuine_stored h.file rowid
  | search p clauses =>
      obtain ⟨hfile, hmemory, hrows, hblocks, hversion⟩ :=
        listed_sound hfernet hprovider hdistinct h.file (h.memory p) clauses
      exact .update hfile
        (fun q => (h.memory q).of_sameScope le_rfl hversion hblocks (hrows ▸ hself)) hmemory
  | tick elapsed =>
      refine ⟨h.file, fun q => (h.memory q).of_sameScope ?_ rfl rfl hself⟩
      show s.now ≤ s.now + elapsed
      omega
  | restart p => exact .update h.file h.memory .empty

include hfernet hprovider hdistinct in
/-- In a sound state a search has the row: it is listed with a sketch that
covers it. -/
theorem SketchState.Sound.findsAll (h : s.Sound host writes) (p : Nat) (clauses : List Clause)
    (tokens : List String) : FindsAll host s p clauses tokens := by
  obtain ⟨-, hmemory, hrows, hblocks, hversion⟩ :=
    listed_sound hfernet hprovider hdistinct h.file (h.memory p) clauses
  have hscan := listed_mem_scans host s.file s.now clauses (s.memory p)
  unfold FindsAll SketchHost.sketchCandidates
  set found := host.listed s.file s.now clauses (s.memory p)
  set wanted := host.sketcher.query tokens
  have hhits : found.1.mapM (fun rowid => (found.2.2.sketches rowid).map fun sketch =>
      (rowid, decide (sketch.bits &&& wanted = wanted))) =
      some (found.1.map fun rowid => (rowid, (found.2.2.sketches rowid).any fun sketch =>
        decide (sketch.bits &&& wanted = wanted))) := by
    refine mapM_eq_some fun rowid hrowid => ?_
    obtain ⟨sketch, hsketch⟩ := Option.isSome_iff_exists.mp (hmemory.sketched _ hscan rowid hrowid)
    simp [hsketch]
  simp only [hhits, Option.map_some]
  refine ⟨_, rfl, fun row hrow own hown htokens => ?_⟩
  have hcurrent : row ∈ matching found.2.1 s.now clauses := by
    unfold matching at hrow ⊢
    rw [hrows, hblocks]
    exact hrow
  have hlisted := hmemory.lists _ hscan hversion.symm row hcurrent
  obtain ⟨sketch, hsketch⟩ := Option.isSome_iff_exists.mp (hmemory.sketched _ hscan _ hlisted)
  have hcovers := hmemory.covers _ hscan hversion.symm row (List.mem_filter.mp hcurrent).1 hlisted
    sketch hsketch own hown tokens htokens
  refine List.mem_map.mpr ⟨(row.rowid, true), List.mem_filter.mpr ⟨?_, rfl⟩, rfl⟩
  refine List.mem_map.mpr ⟨row.rowid, hlisted, ?_⟩
  simp [hsketch, wanted, hcovers]

include hfernet hprovider in
/-- Along a run where no rollback does harm, and where no two texts get the same
stamp, every search of every process finds all rows in every state. -/
theorem sketchCandidates_complete (steps : List SketchStep) (now : Int)
    (hdistinct : host.DistinctStamps (steps.flatMap SketchStep.writes))
    (hharmless : Along (fun step s => step.apply host s) (fun step s => step.Harmless host s)
      steps (SketchState.start now))
    (p : Nat) (clauses : List Clause) (tokens : List String) :
    FindsAll host (run (fun step s => step.apply host s) steps (.start now)) p clauses tokens := by
  have hwrites : Along (fun step s => step.apply host s)
      (fun step _ => ∀ w ∈ step.writes, w ∈ steps.flatMap SketchStep.writes) steps
      (SketchState.start now) :=
    along_of_forall (fun step hstep _ w hw => List.mem_flatMap.mpr ⟨step, hstep, hw⟩) _
  have hsound := (hharmless.and hwrites).invariant
    (I := SketchState.Sound host (steps.flatMap SketchStep.writes))
    (fun _ _ hs hstep => SketchStep.apply_sound hfernet hprovider hdistinct hs hstep.2 hstep.1)
    (.start now)
  exact hsound.findsAll hfernet hprovider hdistinct p clauses tokens

end Runs

/-! ### A memory under a key -/

instance (host : SketchHost) (step : SketchStep) (s : SketchState) :
    Decidable (step.Harmless host s) :=
  match step with
  | .store p ws fails => inferInstanceAs (Decidable (host.rollsBack ws fails s.file = true →
      ∀ scan ∈ (s.memory p).scans, scan.2.1 = s.file.writeVersion →
        ∀ row ∈ s.file.rows, row.rowid ∈ scan.2.2 →
          ∀ w ∈ lastWritten (host.storeRows ws s.file).1 row.rowid,
            ∀ own ∈ host.opened row.content,
              sketchTokens host.py own ⊆ sketchTokens host.py w.fragment.content))
  | .change _ _ | .persist _ | .search _ _ | .tick _ | .restart _ => isTrue trivial

def portHost : SketchHost where
  py := .basic
  fernet := .open_
  provider := .keyed "key".toUTF8
  sketcher := ⟨fun word => (word.toList.foldl (fun n c => n * 31 + c.toNat) 7,
    word.toList.foldl (fun n c => n * 37 + c.toNat) 3)⟩

def portMemory (id agentId content : String) : SealedWrite where
  fragment :=
    { id := id, content := content, blockId := none, scope := .agent, tier := .episodic
      agentId := agentId, sessionId := none, importance := 1 / 2, state := .verified
      confidence := 1, ttlSeconds := none, createdAt := 0, updatedAt := 0
      lastAccessedAt := none, tags := [], source := none, metadata := [], embedding := none
      contradictionIds := [] }
  moment := "".toUTF8

def portClauses : List Clause := fragmentFilters "coder" retrievableStates {}

/-- A memory is stored and found; then a batch gives it a new text, and fails
at a memory of another agent. -/
def portSteps (text : String) : List SketchStep :=
  [.store 0 [portMemory "m" "coder" "The gateway is on port 8080"] false,
   .store 0 [portMemory "n" "writer" "The tone is friendly in all mails"] false,
   .search 0 portClauses,
   .store 0 [portMemory "m" "coder" text, portMemory "n" "coder" "Mails are short now"] false]

def portState (text : String) : SketchState :=
  run (fun step s => step.apply portHost s) (portSteps text) (.start 0)

/-- A new text with the old words in it does no harm. -/
theorem sketchCandidates_complete_port :
    FindsAll portHost (portState "The gateway is on port 8080 since May") 0 portClauses
      ["8080"] := by
  have hdistinct : portHost.DistinctStamps
      ((portSteps "The gateway is on port 8080 since May").flatMap SketchStep.writes) := by
    unfold SketchHost.DistinctStamps
    decide +kernel
  have hharmless : Along (fun step s => step.apply portHost s)
      (fun step s => step.Harmless portHost s)
      (portSteps "The gateway is on port 8080 since May") (.start 0) := by
    decide +kernel
  have hprovider : portHost.provider.WellFormed := trivial
  exact sketchCandidates_complete lawful_open hprovider _ 0 hdistinct hharmless 0 portClauses
    ["8080"]

/-- The text that was rolled back hides the memory from its own words. -/
theorem rolledBack_text_hides :
    portHost.DistinctStamps
        ((portSteps "The gateway is on port 9090").flatMap SketchStep.writes) ∧
      ¬ FindsAll portHost (portState "The gateway is on port 9090") 0 portClauses ["8080"] := by
  constructor
  · unfold SketchHost.DistinctStamps
    decide +kernel
  · rintro ⟨ids, hids, hall⟩
    have hnone : portHost.sketchCandidates (portState "The gateway is on port 9090").file 0
        portClauses ["8080"] ((portState "The gateway is on port 9090").memory 0) = some [] := by
      decide +kernel
    cases hnone.symm.trans hids
    have hrow : ((matching (portState "The gateway is on port 9090").file 0 portClauses).any
        fun row => (portHost.opened row.content).any fun own =>
          decide (["8080"] ⊆ sketchTokens portHost.py own)) = true := by
      decide +kernel
    obtain ⟨row, hmatching, hopened⟩ := List.any_eq_true.mp hrow
    obtain ⟨own, hown, hwords⟩ := (Option.any_eq_true _ _).mp hopened
    exact List.not_mem_nil (hall row hmatching own hown (of_decide_eq_true hwords))

end MarkSdk
