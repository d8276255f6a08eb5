import MarkSdk.Facts.Effect
import MarkSdk.Snapshots.Processes

/-!
Which snapshots serve no stale vector.

A note stands in for every vector that the snapshot does not have any more, as
long as the writer has the hook, and as long as a save empties the notes only
for vectors that are those of the rows. The write version does not say so:
`update_embedding` does not move it, and a process may hold a vector from before
it read the version. Along runs where every save is of the vectors in the rows,
and where no load is overtaken between its reads, loads serve what the rows have
(`snapshotLoad_serves_stored`).
-/

namespace MarkSdk

open Lib

/-- The pair is not stale for the row, as a memory of the agent. -/
def Fragment.NotStale (normalize : List ℚ → List ℚ) (agentId : String) (r : String × List ℚ)
    (f : Fragment) : Prop :=
  f.agentId = agentId → f.id = r.1 → f.embedding.map normalize = some r.2

namespace VectorFile

variable (normalize : List ℚ → List ℚ)

/-- No row has another vector than the pair. -/
def Current (file : VectorFile) (agentId : String) (r : String × List ℚ) : Prop :=
  ∀ f ∈ file.tables.db.fragments.rows, f.NotStale normalize agentId r

/-- The pairs of the agent's snapshot that are not noted. -/
def servedPairs (file : VectorFile) (agentId : String) : List (String × List ℚ) :=
  (((file.snapshots agentId).map VectorSnapshot.pairs).getD []).filter fun r =>
    (agentId, r.1) ∉ file.dirty

/-- The snapshots are in order, and what is not noted is current. -/
structure Fresh (file : VectorFile) : Prop where
  fits : ∀ agentId snapshot, file.snapshots agentId = some snapshot → snapshot.Fits
  current : ∀ agentId, ∀ r ∈ file.servedPairs agentId, file.Current normalize agentId r

variable {normalize} {file file' : VectorFile}

theorem mem_servedPairs {agentId : String} {r : String × List ℚ} :
    r ∈ file.servedPairs agentId ↔
      (∃ snapshot, file.snapshots agentId = some snapshot ∧ r ∈ snapshot.pairs) ∧
        (agentId, r.1) ∉ file.dirty := by
  unfold servedPairs
  rw [List.mem_filter, decide_eq_true_eq]
  refine and_congr_left fun _ => ?_
  cases file.snapshots agentId with
  | none => simp
  | some snapshot => simp

/-! ### One write -/

/-- A row that has an old row's vector, or that no served pair is stale for. -/
theorem Fresh.of_rows (h : file.Fresh normalize)
    (hsnapshots : ∀ agentId snapshot, file'.snapshots agentId = some snapshot →
      file.snapshots agentId = some snapshot)
    (hrows : ∀ agentId, ∀ r ∈ file'.servedPairs agentId, r ∈ file.servedPairs agentId ∧
      ∀ f' ∈ file'.tables.db.fragments.rows, f'.agentId = agentId → f'.id = r.1 →
        (∃ f ∈ file.tables.db.fragments.rows, f.id = f'.id ∧ f.agentId = f'.agentId ∧
          f.embedding = f'.embedding) ∨ f'.NotStale normalize agentId r) :
    file'.Fresh normalize where
  fits agentId snapshot hsnapshot := h.fits agentId snapshot (hsnapshots agentId snapshot hsnapshot)
  current := by
    intro agentId r hr f' hf' hagent hid
    obtain ⟨hserved, hold⟩ := hrows agentId r hr
    obtain ⟨f, hf, hsame, hsameAgent, hembedding⟩ | hnew := hold f' hf' hagent hid
    · rw [← hembedding]
      exact h.current agentId r hserved f hf (hsameAgent.trans hagent) (hsame.trans hid)
    · exact hnew hagent hid

/-- What is written has an old row's vector, or is noted where there is a snapshot. -/
theorem Fresh.of_noted (h : file.Fresh normalize) (hsnapshots : file'.snapshots = file.snapshots)
    (hdirty : ∀ note ∈ file.dirty, note ∈ file'.dirty)
    (hrows : ∀ f' ∈ file'.tables.db.fragments.rows,
      (∃ f ∈ file.tables.db.fragments.rows, f.id = f'.id ∧ f.agentId = f'.agentId ∧
        f.embedding = f'.embedding) ∨
      ((file.snapshots f'.agentId).isSome = true → (f'.agentId, f'.id) ∈ file'.dirty)) :
    file'.Fresh normalize := by
  refine h.of_rows (fun agentId snapshot hsnapshot => by rwa [← hsnapshots]) fun agentId r hr => ?_
  rw [mem_servedPairs, hsnapshots] at hr
  obtain ⟨⟨snapshot, hsnapshot, hpair⟩, hclean⟩ := hr
  refine ⟨mem_servedPairs.mpr ⟨⟨snapshot, hsnapshot, hpair⟩, fun hnoted =>
    hclean (hdirty _ hnoted)⟩, fun f' hf' hagent hid => .inl ?_⟩
  refine (hrows f' hf').resolve_right fun hnoted => hclean ?_
  rw [← hagent, ← hid]
  refine hnoted ?_
  rw [hagent, hsnapshot]
  rfl

/-- Notes do no harm, and neither does a write that keeps the vectors. -/
theorem Fresh.of_keeps (h : file.Fresh normalize) (hsnapshots : file'.snapshots = file.snapshots)
    (hdirty : ∀ note ∈ file.dirty, note ∈ file'.dirty)
    (hkeeps : KeepsVectors file.tables.db file'.tables.db) : file'.Fresh normalize :=
  h.of_noted hsnapshots hdirty fun f' hf' => .inl (hkeeps f' hf')

/-- A transaction that fails changes nothing. -/
theorem Fresh.writing {α : Type} (h : file.Fresh normalize) {structural : Bool}
    {program : StoreTxn α} {after : α → VectorFile → VectorFile}
    (hcommitted : ∀ a tables version, program.exec file.tables = .ok (a, tables) →
      (after a { file with tables := tables, writeVersion := version }).Fresh normalize) :
    (file.writing structural program after).Fresh normalize := by
  unfold VectorFile.writing
  split
  · exact h
  · rename_i a tables hexec
    exact hcommitted a tables _ hexec

theorem markVectorDirty_fields (agentId fragmentId : String) (file : VectorFile) :
    let after := file.markVectorDirty agentId fragmentId
    after.tables = file.tables ∧ after.snapshots = file.snapshots ∧
      ∀ note, note ∈ after.dirty ↔ note ∈ file.dirty ∨
        (file.snapshots agentId).isSome = true ∧ note = (agentId, fragmentId) := by
  unfold VectorFile.markVectorDirty
  dsimp only
  split
  · rename_i hsnapshot
    refine ⟨rfl, rfl, fun note => ?_⟩
    rw [List.mem_insert_iff, or_comm]
    exact or_congr_right (iff_and_self.mpr fun _ => hsnapshot)
  · rename_i hsnapshot
    exact ⟨rfl, rfl, fun note => ⟨.inl, fun hnote => hnote.resolve_right fun hnew =>
      hsnapshot hnew.1⟩⟩

/-- A loop of notes. -/
theorem foldl_markVectorDirty {α : Type} (agent id : α → String) (xs : List α)
    (file : VectorFile) :
    let after := xs.foldl (fun file x => file.markVectorDirty (agent x) (id x)) file
    after.tables = file.tables ∧ after.snapshots = file.snapshots ∧
      ∀ note, note ∈ after.dirty ↔ note ∈ file.dirty ∨
        ∃ x ∈ xs, (file.snapshots (agent x)).isSome = true ∧ note = (agent x, id x) := by
  induction xs generalizing file with
  | nil => exact ⟨rfl, rfl, fun note => by simp⟩
  | cons x xs ih =>
      obtain ⟨htables, hsnapshots, hdirty⟩ := ih (file.markVectorDirty (agent x) (id x))
      obtain ⟨htables₁, hsnapshots₁, hdirty₁⟩ := markVectorDirty_fields (agent x) (id x) file
      refine ⟨htables.trans htables₁, hsnapshots.trans hsnapshots₁, fun note => ?_⟩
      refine (hdirty note).trans ?_
      rw [hdirty₁, hsnapshots₁, or_assoc, List.exists_mem_cons_iff]

theorem Fresh.markVectorsDirty (h : file.Fresh normalize) (agentId : String)
    (fragmentIds : List String) : (file.markVectorsDirty agentId fragmentIds).Fresh normalize := by
  obtain ⟨htables, hsnapshots, hdirty⟩ :=
    foldl_markVectorDirty (fun _ => agentId) (fun id => id) fragmentIds file
  refine h.of_keeps hsnapshots (fun note hnote => (hdirty note).mpr (.inl hnote)) ?_
  unfold VectorFile.markVectorsDirty
  rw [htables]
  exact .refl _

/-- What is stored is in the batch. -/
theorem mem_rows_storeMany {py : Python} {fragments : List Fragment} {s s' : LocalStore}
    {ids : List String} (h : (onDb (MarkSdk.storeMany py fragments)).exec s = .ok (ids, s')) :
    ∀ f' ∈ s'.db.fragments.rows, f' ∈ s.db.fragments.rows ∨ f' ∈ fragments := by
  let Adds (s s' : LocalStore) : Prop :=
    ∀ f' ∈ s'.db.fragments.rows, f' ∈ s.db.fragments.rows ∨ f' ∈ fragments
  have heach : (onDb (MarkSdk.storeMany py fragments)).Each Adds := by
    refine (each_onDb (R := fun db db' => ∀ f' ∈ db'.fragments.rows,
      f' ∈ db.fragments.rows ∨ f' ∈ fragments) ?_).mono fun _ _ hstep => hstep.1
    refine Txn.each_bind (Txn.each_forEach fun fragment hfragment =>
      Txn.each_bind ((store_upserts py fragment).mono ?_) fun _ => trivial) fun _ => trivial
    rintro db _ rfl f' hf'
    obtain hold | rfl := Table.mem_upsert hf'
    · exact .inl hold
    · exact .inr hfragment
  refine heach.exec (fun s f' hf' => .inl hf') (fun {s t u} hst htu f' hf' => ?_) h
  obtain hold | hnew := htu f' hf'
  · exact hst f' hold
  · exact .inr hnew

/-- A store notes what it writes, or what it writes is what the snapshots have. -/
theorem Fresh.storeMany (h : file.Fresh normalize) {ftsEnabled : Bool} {py : Python}
    {fragments : List Fragment}
    (hfragments : ftsEnabled = true ∨ ∀ f ∈ fragments, ∀ r ∈ file.servedPairs f.agentId,
      f.NotStale normalize f.agentId r) :
    (file.storeMany ftsEnabled py fragments).Fresh normalize := by
  refine h.writing fun ids tables version hexec => ?_
  have hstored := mem_rows_storeMany hexec
  cases ftsEnabled with
  | true =>
      obtain ⟨htables, hsnapshots, hdirty⟩ := foldl_markVectorDirty Fragment.agentId Fragment.id
        fragments { file with tables := tables, writeVersion := version }
      rw [if_pos rfl]
      refine h.of_noted hsnapshots (fun note hnote => (hdirty note).mpr (.inl hnote))
        fun f' hf' => ?_
      rw [htables] at hf'
      obtain hold | hnew := hstored f' hf'
      · exact .inl ⟨f', hold, rfl, rfl, rfl⟩
      · exact .inr fun hsnapshot => (hdirty _).mpr (.inr ⟨f', hnew, hsnapshot, rfl⟩)
  | false =>
      have hfragments := hfragments.resolve_left Bool.false_ne_true
      refine h.of_rows (fun agentId snapshot hsnapshot => hsnapshot) fun agentId r hr =>
        ⟨hr, fun f' hf' hagent hid => ?_⟩
      obtain hold | hnew := hstored f' hf'
      · exact .inl ⟨f', hold, rfl, rfl, rfl⟩
      · rw [← hagent] at hr ⊢
        exact .inr (hfragments f' hnew r hr)

/-- The rows before, or the one whose embedding is new. -/
theorem mem_rows_updateEmbedding {fragmentId : String} {embedding : List ℚ} {db : Db}
    {f' : Fragment}
    (h : f' ∈ (db.fragments.update (fun r => r.id = fragmentId)
      (fun r => { r with embedding := some embedding }) fun _ => rfl).rows) :
    f' ∈ db.fragments.rows ∨ ∃ row, db.fragments.find? fragmentId = some row ∧
      f'.id = fragmentId ∧ f'.agentId = row.agentId := by
  obtain ⟨f, hf, rfl⟩ := List.mem_map.mp h
  dsimp only
  split
  · rename_i hid
    rw [decide_eq_true_eq] at hid
    exact .inr ⟨f, Table.find?_eq_some_iff.mpr ⟨hf, hid⟩, hid, rfl⟩
  · exact .inl hf

/-- A new embedding is noted under the agent of its row. -/
theorem Fresh.updateEmbedding (h : file.Fresh normalize) (fragmentId : String)
    (embedding : List ℚ) : (file.updateEmbedding fragmentId embedding).Fresh normalize := by
  refine h.writing fun row tables version hexec => ?_
  rw [exec_onDb] at hexec
  obtain ⟨hrow, htables⟩ := Prod.mk.inj (Except.ok.inj hexec)
  have hwritten : ∀ f' ∈ tables.db.fragments.rows, f' ∈ file.tables.db.fragments.rows ∨
      ∃ found, row = some found ∧ f'.id = fragmentId ∧ f'.agentId = found.agentId := by
    intro f' hf'
    rw [← htables] at hf'
    rw [← hrow]
    exact mem_rows_updateEmbedding hf'
  cases row with
  | none =>
      refine h.of_noted rfl (fun _ hnote => hnote) fun f' hf' => ?_
      obtain hold | ⟨found, ⟨⟩, -⟩ := hwritten f' hf'
      exact .inl ⟨f', hold, rfl, rfl, rfl⟩
  | some row =>
      obtain ⟨hsame, hsnapshots, hdirty⟩ := markVectorDirty_fields row.agentId fragmentId
        { file with tables := tables, writeVersion := version }
      refine h.of_noted hsnapshots (fun note hnote => (hdirty note).mpr (.inl hnote))
        fun f' hf' => ?_
      rw [hsame] at hf'
      obtain hold | ⟨found, hfound, hid, hagent⟩ := hwritten f' hf'
      · exact .inl ⟨f', hold, rfl, rfl, rfl⟩
      · cases hfound
        refine .inr fun hsnapshot => (hdirty _).mpr (.inr ⟨?_, ?_⟩)
        · rwa [hagent] at hsnapshot
        · rw [hagent, hid]

theorem Fresh.dropVectorSnapshot (h : file.Fresh normalize) (agentId : String) :
    (file.dropVectorSnapshot agentId).Fresh normalize := by
  have hother : ∀ a snapshot, (file.dropVectorSnapshot agentId).snapshots a = some snapshot →
      a ≠ agentId ∧ file.snapshots a = some snapshot := by
    intro a snapshot hsnapshot
    by_cases ha : a = agentId
    · subst ha
      have hnone : (file.dropVectorSnapshot a).snapshots a = none := Function.update_self ..
      rw [hnone] at hsnapshot
      cases hsnapshot
    · exact ⟨ha, (Function.update_of_ne ha ..).symm.trans hsnapshot⟩
  refine h.of_rows (fun a snapshot hsnapshot => (hother a snapshot hsnapshot).2) fun a r hr => ?_
  obtain ⟨⟨snapshot, hsnapshot, hpair⟩, hclean⟩ := mem_servedPairs.mp hr
  obtain ⟨ha, hsnapshot⟩ := hother a snapshot hsnapshot
  refine ⟨mem_servedPairs.mpr ⟨⟨snapshot, hsnapshot, hpair⟩, fun hnoted => hclean ?_⟩,
    fun f' hf' _ _ => .inl ⟨f', hf', rfl, rfl, rfl⟩⟩
  exact List.mem_filter.mpr ⟨hnoted, decide_eq_true ha⟩

/-- A memory that is forgotten takes its vector with it, and no other row changes. -/
theorem keepsVectors_forgetFragment {now : Int} {fragmentId : String} {secure : Bool}
    {row : Option Fragment} {s s' : LocalStore}
    (h : (onDb do
      let row ← Txn.query fun db => db.fragments.find? fragmentId
      let _ ← MarkSdk.forgetFragment now fragmentId secure
      return row).exec s = .ok (row, s')) : KeepsVectors s.db s'.db := by
  rw [exec_onDb, Txn.exec_query_bind, Txn.exec_bind, exec_forgetFragment] at h
  cases hfind : s.db.fragments.find? fragmentId with
  | none =>
      rw [hfind] at h
      cases h
      exact .refl _
  | some found =>
      rw [hfind] at h
      cases h
      refine (keepsVectors_delete s.db fun r => r.id = fragmentId).trans (keepsVectors_of_eq ?_)
      refine (fragments_rechainAll _ _).trans ?_
      unfold Db.cutFacts Db.dropFragment
      split <;> rfl

theorem Fresh.forgetFragment (h : file.Fresh normalize) (now : Int) (fragmentId : String)
    (secure : Bool) : (file.forgetFragment now fragmentId secure).Fresh normalize := by
  refine h.writing fun row tables version hexec => ?_
  have hcommitted : ({ file with tables := tables, writeVersion := version } :
      VectorFile).Fresh normalize :=
    h.of_keeps rfl (fun _ hnote => hnote) (keepsVectors_forgetFragment hexec)
  cases row with
  | none => exact hcommitted
  | some row =>
      dsimp only
      split
      · exact hcommitted.dropVectorSnapshot row.agentId
      · exact hcommitted

theorem Fresh.quietWrite (h : file.Fresh normalize) (w : QuietWrite) :
    (file.writing w.structural w.program fun _ file => file).Fresh normalize := by
  refine h.writing fun _ tables version hexec => h.of_keeps rfl (fun _ hnote => hnote) ?_
  exact w.keeps.exec (fun s => .refl s.db) (fun hst htu => hst.trans htu) hexec

/-- A save of the vectors that the rows have. -/
theorem Fresh.saveSnapshot (h : file.Fresh normalize) {ftsEnabled : Bool} {partRows : Nat}
    (hpartRows : 0 < partRows) {agentId fingerprint : String} {version : Int}
    {index : VectorIndex ℚ} (hsound : index.Sound) (huniform : index.Uniform)
    (hvectors : (file.saveSnapshot ftsEnabled partRows agentId fingerprint version index).1 = true →
      ∀ r ∈ index.vectorsOf agentId, '\n' ∉ r.1.toList ∧ file.Current normalize agentId r) :
    (file.saveSnapshot ftsEnabled partRows agentId fingerprint version index).2.Fresh
      normalize := by
  obtain hrefused | ⟨snapshot, hsaved, -, -, hpairs⟩ := saveSnapshot_cases ftsEnabled hpartRows
    agentId fingerprint version file hsound huniform
  · rw [hrefused]
    exact h
  · rw [hsaved] at hvectors ⊢
    have hvectors := hvectors rfl
    obtain ⟨hfits, hpairs⟩ := hpairs fun r hr => (hvectors r hr).1
    have hdropped := h.dropVectorSnapshot agentId
    constructor
    · intro a saved hsaved
      by_cases ha : a = agentId
      · subst ha
        cases (Function.update_self a (some snapshot) file.snapshots).symm.trans hsaved
        exact hfits
      · exact h.fits a saved ((Function.update_of_ne ha _ _).symm.trans hsaved)
    · intro a r hr
      obtain ⟨⟨saved, hsaved, hpair⟩, hclean⟩ := mem_servedPairs.mp hr
      by_cases ha : a = agentId
      · subst ha
        cases (Function.update_self a (some snapshot) file.snapshots).symm.trans hsaved
        rw [hpairs] at hpair
        exact (hvectors r hpair).2
      · have hsaved := (Function.update_of_ne ha _ _).symm.trans hsaved
        refine hdropped.current a r (mem_servedPairs.mpr ⟨⟨saved, ?_, hpair⟩, hclean⟩)
        exact (Function.update_of_ne ha _ _).trans hsaved

end VectorFile

end MarkSdk
