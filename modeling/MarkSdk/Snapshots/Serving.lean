import MarkSdk.Snapshots.Freshness

/-!
What the loads of a run serve.

A step does no harm when it leaves the snapshots fresh: a save is of the vectors
that the rows have, a process without the full-text hook stores nothing that a
snapshot has another vector for, and nothing that the snapshot holds is noted
between the reads of a load. Along runs without harm every load serves the
vectors of the rows (`snapshotLoad_serves_stored`). A vector that a process has
taken from its row stays the row's until another step replaces it
(`current_run`); what is saved after that is what the next load yields
(`served_after_save`), and the write version does not keep it back.
-/

namespace MarkSdk

open Lib

/-- The snapshot is the one that the load has begun to read, and what has been noted
since is not in it. -/
def VectorFile.Undisturbed (file : VectorFile) (load : SnapshotLoad) : Prop :=
  ∀ snapshot ∈ file.snapshots load.agentId, ∀ dirty ∈ load.dirty,
    snapshot.fingerprint = load.fingerprint ∧ snapshot.dim = load.dim ∧
      ∀ r ∈ snapshot.pairs, (load.agentId, r.1) ∈ file.dirty → r.1 ∈ dirty

/-- The step makes no load stale. -/
def SnapshotStep.Harmless (host : SnapshotHost) (step : SnapshotStep) (s : SnapshotState) : Prop :=
  match step with
  | .store p fragments =>
      host.ftsEnabled p = true ∨ ∀ f ∈ fragments, ∀ r ∈ s.file.servedPairs f.agentId,
        f.NotStale host.env.normalize f.agentId r
  | .saveSnapshot p agentId fingerprint =>
      (s.file.saveSnapshot (host.ftsEnabled p) host.partRows agentId fingerprint
        (s.processes p).version (s.processes p).index).1 = true →
        ∀ r ∈ (s.processes p).index.vectorsOf agentId,
          '\n' ∉ r.1.toList ∧ s.file.Current host.env.normalize agentId r
  | .readParts p => ∀ load ∈ (s.processes p).load, s.file.Undisturbed load
  | _ => True

/-- What the load of the process yields now is of a snapshot with its fingerprint, and
is what the rows have. -/
def SnapshotState.ServesStored (host : SnapshotHost) (s : SnapshotState) (p : Nat) : Prop :=
  ∀ load ∈ (s.processes p).load, ∀ r ∈ load.served s.file,
    (∃ snapshot ∈ s.file.snapshots load.agentId, snapshot.fingerprint = load.fingerprint) ∧
      s.file.Current host.env.normalize load.agentId r

/-- The snapshots are fresh, and the indexes are in order. -/
structure SnapshotState.Sound (host : SnapshotHost) (s : SnapshotState) : Prop where
  file : s.file.Fresh host.env.normalize
  index : ∀ p, (s.processes p).index.Sound
  uniform : ∀ p, (s.processes p).index.Uniform

section Runs

variable {host : SnapshotHost} {s : SnapshotState}

theorem SnapshotState.Sound.start (tables : LocalStore) (version : Int) :
    (SnapshotState.start tables version).Sound host where
  file :=
    { fits := fun _ _ hsnapshot => by cases hsnapshot
      current := fun _ _ hr => by cases hr }
  index _ := VectorIndex.sound_new (show VectorIndex.new host.env .python = some _ from rfl)
  uniform _ := VectorIndex.uniform_new (show VectorIndex.new host.env .python = some _ from rfl)

theorem SnapshotState.Sound.onFile (h : s.Sound host) {change : VectorFile → VectorFile}
    (hfile : (change s.file).Fresh host.env.normalize) : (s.onFile change).Sound host :=
  ⟨hfile, h.index, h.uniform⟩

theorem SnapshotState.Sound.onProcess (h : s.Sound host) {p : Nat}
    {change : SnapshotProcess → SnapshotProcess}
    (hsound : (change (s.processes p)).index.Sound)
    (huniform : (change (s.processes p)).index.Uniform) : (s.onProcess p change).Sound host := by
  have hindex : ∀ q, ((s.onProcess p change).processes q).index.Sound ∧
      ((s.onProcess p change).processes q).index.Uniform := by
    intro q
    by_cases hq : q = p
    · subst hq
      have hself : (s.onProcess q change).processes q = change (s.processes q) :=
        Function.update_self ..
      rw [hself]
      exact ⟨hsound, huniform⟩
    · have hother : (s.onProcess p change).processes q = s.processes q :=
        Function.update_of_ne hq ..
      rw [hother]
      exact ⟨h.index q, h.uniform q⟩
  exact ⟨h.file, fun q => (hindex q).1, fun q => (hindex q).2⟩

/-- Each step without harm keeps the snapshots fresh. -/
theorem SnapshotState.Sound.apply (h : s.Sound host) {step : SnapshotStep}
    (hharmless : step.Harmless host s) : (step.apply host s).Sound host := by
  cases step with
  | store p fragments => exact h.onFile (h.file.storeMany hharmless)
  | updateEmbedding fragmentId embedding =>
      exact h.onFile (h.file.updateEmbedding fragmentId embedding)
  | markVectorsDirty agentId fragmentIds =>
      exact h.onFile (h.file.markVectorsDirty agentId fragmentIds)
  | forget now fragmentId secure => exact h.onFile (h.file.forgetFragment now fragmentId secure)
  | write w => exact h.onFile (h.file.quietWrite w)
  | dropVectorSnapshot agentId => exact h.onFile (h.file.dropVectorSnapshot agentId)
  | restart p backend =>
      dsimp only [SnapshotStep.apply]
      refine h.onProcess ?_ ?_
      · cases hnew : VectorIndex.new host.env backend with
        | none => exact h.index p
        | some index => exact VectorIndex.sound_new hnew
      · cases hnew : VectorIndex.new host.env backend with
        | none => exact h.uniform p
        | some index => exact VectorIndex.uniform_new hnew
  | index p call =>
      dsimp only [SnapshotStep.apply]
      exact h.onProcess ((h.index p).step host.env call)
        ((h.uniform p).step host.env (h.index p) call)
  | saveSnapshot p agentId fingerprint =>
      dsimp only [SnapshotStep.apply]
      exact h.onFile (h.file.saveSnapshot host.partRows_pos (h.index p) (h.uniform p) hharmless)
  | readVersion p | readMeta p _ _ | readDirty p | readParts p =>
      dsimp only [SnapshotStep.apply]
      exact h.onProcess (h.index p) (h.uniform p)

/-- What an undisturbed load yields is what the snapshot has that is not noted. -/
theorem served_subset {file : VectorFile} {normalize : List ℚ → List ℚ}
    (hfresh : file.Fresh normalize) {load : SnapshotLoad} (h : file.Undisturbed load)
    {r : String × List ℚ} (hr : r ∈ load.served file) :
    (∃ snapshot ∈ file.snapshots load.agentId, snapshot.fingerprint = load.fingerprint) ∧
      r ∈ file.servedPairs load.agentId := by
  unfold SnapshotLoad.served at hr
  cases hdirty : load.dirty with
  | none =>
      rw [hdirty] at hr
      cases hr
  | some dirty =>
      rw [hdirty] at hr
      unfold VectorFile.snapshotParts at hr
      cases hsnapshot : file.snapshots load.agentId with
      | none =>
          rw [hsnapshot] at hr
          cases hr
      | some snapshot =>
          obtain ⟨hfingerprint, hdim, hnoted⟩ := h snapshot hsnapshot dirty hdirty
          dsimp only at hr
          rw [hsnapshot, Option.map_some, Option.getD_some, ← hdim,
            pairs_load (hfresh.fits load.agentId snapshot hsnapshot) dirty, List.mem_filter,
            decide_eq_true_eq] at hr
          refine ⟨⟨snapshot, rfl, hfingerprint⟩, VectorFile.mem_servedPairs.mpr
            ⟨⟨snapshot, hsnapshot, hr.1⟩, fun hin => hr.2 (hnoted r hr.1 hin)⟩⟩

/-- Along a run without harm, whose last step reads the parts of a load, the load
yields the vectors that the rows have then. -/
theorem snapshotLoad_serves_stored (host : SnapshotHost) (tables : LocalStore) (version : Int)
    (steps : List SnapshotStep) (p : Nat)
    (hharmless : Along (SnapshotStep.apply host) (SnapshotStep.Harmless host)
      (steps ++ [.readParts p]) (.start tables version)) :
    (run (SnapshotStep.apply host) steps (.start tables version)).ServesStored host p := by
  obtain ⟨hsteps, hlast⟩ := along_append.mp hharmless
  have hsound : (run (SnapshotStep.apply host) steps (.start tables version)).Sound host :=
    hsteps.invariant (fun _ _ hs hstep => hs.apply hstep) (.start tables version)
  intro load hload r hr
  obtain ⟨hfingerprint, hserved⟩ := served_subset hsound.file (hlast.1 load hload) hr
  exact ⟨hfingerprint, hsound.file.current load.agentId r hserved⟩

/-- A load right after a save yields what the index of the saving process held, so that
it is stale unless that is what the rows have. -/
theorem served_after_save (h : s.Sound host) {p : Nat} {agentId fingerprint : String}
    (hlines : ∀ r ∈ (s.processes p).index.vectorsOf agentId, '\n' ∉ r.1.toList)
    (haccepted : (s.file.saveSnapshot (host.ftsEnabled p) host.partRows agentId fingerprint
      (s.processes p).version (s.processes p).index).1 = true) :
    let file := (SnapshotStep.apply host (.saveSnapshot p agentId fingerprint) s).file
    ∀ load ∈ (host.readMeta p agentId fingerprint file).map (SnapshotLoad.readDirty file),
      load.served file = (s.processes p).index.vectorsOf agentId := by
  intro file load hload
  obtain hrefused | ⟨snapshot, hsaved, -, hfingerprint, hpairs⟩ :=
    saveSnapshot_cases (host.ftsEnabled p) host.partRows_pos agentId fingerprint
      (s.processes p).version s.file (h.index p) (h.uniform p)
  · rw [hrefused] at haccepted
    cases haccepted
  · obtain ⟨hfits, hpairs⟩ := hpairs hlines
    have hfile : file = { s.file.dropVectorSnapshot agentId with
        snapshots := Function.update s.file.snapshots agentId (some snapshot) } :=
      congrArg Prod.snd hsaved
    have hsnapshot : file.snapshots agentId = some snapshot := by
      rw [hfile]
      exact Function.update_self ..
    have hdirty : file.dirtyIds agentId = [] := by
      rw [hfile]
      unfold VectorFile.dirtyIds VectorFile.dropVectorSnapshot
      simp
    obtain ⟨begun, hbegun, rfl⟩ := Option.map_eq_some_iff.mp hload
    unfold SnapshotHost.readMeta VectorFile.snapshotMeta at hbegun
    rw [hsnapshot] at hbegun
    split at hbegun
    · cases hbegun
    · simp only [hfingerprint, ne_eq, not_true_eq_false, if_false, Option.map_some,
        Option.some.injEq] at hbegun
      subst hbegun
      show ((file.snapshotParts agentId).map
        (VectorFile.snapshotRow (file.dirtyIds agentId) snapshot.dim)).flatMap
          (vectorPairs snapshot.dim) = _
      unfold VectorFile.snapshotParts
      rw [hsnapshot, hdirty, Option.map_some, Option.getD_some, pairs_load hfits, hpairs]
      simp

/-! ### What makes a vector stale -/

/-- The step writes another vector for the id of the pair. -/
def SnapshotStep.Replaces (normalize : List ℚ → List ℚ) (agentId : String)
    (r : String × List ℚ) : SnapshotStep → Prop
  | .store _ fragments => ∃ f ∈ fragments, ¬ f.NotStale normalize agentId r
  | .updateEmbedding fragmentId embedding => fragmentId = r.1 ∧ normalize embedding ≠ r.2
  | _ => False

section Replaces

variable {normalize : List ℚ → List ℚ} {file : VectorFile} {agentId : String}
  {r : String × List ℚ}

theorem VectorFile.Current.of_keeps {file' : VectorFile} (h : file.Current normalize agentId r)
    (hkeeps : KeepsVectors file.tables.db file'.tables.db) :
    file'.Current normalize agentId r := by
  intro f' hf' hagent hid
  obtain ⟨f, hf, hsame, hsameAgent, hembedding⟩ := hkeeps f' hf'
  rw [← hembedding]
  exact h f hf (hsameAgent.trans hagent) (hsame.trans hid)

theorem VectorFile.Current.writing {α : Type} (h : file.Current normalize agentId r)
    {structural : Bool} {program : StoreTxn α} {after : α → VectorFile → VectorFile}
    (hafter : ∀ a file, (after a file).tables = file.tables)
    (hcommitted : ∀ a tables, program.exec file.tables = .ok (a, tables) →
      ({ file with tables := tables } : VectorFile).Current normalize agentId r) :
    (file.writing structural program after).Current normalize agentId r := by
  unfold VectorFile.writing
  split
  · exact h
  · rename_i a tables hexec
    intro f' hf'
    rw [hafter] at hf'
    exact hcommitted a tables hexec f' hf'

/-- A pair stays current until a step writes another vector for its id. -/
theorem current_apply {step : SnapshotStep} (h : s.file.Current normalize agentId r)
    (hkept : ¬ step.Replaces normalize agentId r) :
    (step.apply host s).file.Current normalize agentId r := by
  cases step with
  | store p fragments =>
      refine h.writing (fun ids file => ?_) fun ids tables hexec f' hf' => ?_
      · split
        · exact (VectorFile.foldl_markVectorDirty Fragment.agentId Fragment.id fragments file).1
        · rfl
      · obtain hold | hnew := VectorFile.mem_rows_storeMany hexec f' hf'
        · exact h f' hold
        · by_contra hstale
          exact hkept ⟨f', hnew, hstale⟩
  | updateEmbedding fragmentId embedding =>
      refine h.writing (fun row file => ?_) fun row tables hexec f' hf' => ?_
      · cases row with
        | none => rfl
        | some row => exact (VectorFile.markVectorDirty_fields row.agentId fragmentId file).1
      · rw [exec_onDb] at hexec
        obtain ⟨-, htables⟩ := Prod.mk.inj (Except.ok.inj hexec)
        rw [← htables] at hf'
        obtain ⟨f, hf, rfl⟩ := List.mem_map.mp hf'
        split
        · rename_i hid
          rw [decide_eq_true_eq] at hid
          intro _ hpair
          by_contra hstale
          exact hkept ⟨hid.symm.trans hpair, fun heq => hstale (congrArg some heq)⟩
        · exact h f hf
  | markVectorsDirty a fragmentIds =>
      refine h.of_keeps (keepsVectors_of_eq ?_)
      have htables := (VectorFile.foldl_markVectorDirty (fun _ => a) (fun id => id) fragmentIds
        s.file).1
      exact congrArg (fun tables => tables.db.fragments) htables
  | forget now fragmentId secure =>
      refine h.writing (fun row file => ?_) fun row tables hexec => ?_
      · cases row with
        | none => rfl
        | some row =>
            dsimp only
            split <;> rfl
      · exact h.of_keeps (VectorFile.keepsVectors_forgetFragment hexec)
  | write w =>
      refine h.writing (fun _ _ => rfl) fun a tables hexec => ?_
      exact h.of_keeps (w.keeps.exec (fun s => .refl s.db) (fun hst htu => hst.trans htu) hexec)
  | saveSnapshot p a fingerprint =>
      refine h.of_keeps (keepsVectors_of_eq ?_)
      dsimp only [SnapshotStep.apply, SnapshotState.onFile]
      unfold VectorFile.saveSnapshot
      split
      · rfl
      · split
        · rfl
        · unfold VectorFile.saveVectorSnapshot
          split <;> rfl
  | _ => exact h

/-- So a save is of current vectors when no step has replaced one of them since the
process took it from its row. -/
theorem current_run {steps : List SnapshotStep} (h : s.file.Current normalize agentId r)
    (hkept : ∀ step ∈ steps, ¬ step.Replaces normalize agentId r) :
    (run (SnapshotStep.apply host) steps s).file.Current normalize agentId r :=
  (along_of_forall (fun step hstep _ => hkept step hstep) s).invariant
    (I := fun s => s.file.Current normalize agentId r) (fun _ _ hs hstep => current_apply hs hstep) h

end Replaces

end Runs

/-! ### Two processes -/

instance (normalize : List ℚ → List ℚ) (agentId : String) (r : String × List ℚ) (f : Fragment) :
    Decidable (f.NotStale normalize agentId r) :=
  inferInstanceAs (Decidable (_ → _ → _))

instance (normalize : List ℚ → List ℚ) (file : VectorFile) (agentId : String)
    (r : String × List ℚ) : Decidable (file.Current normalize agentId r) :=
  inferInstanceAs (Decidable (∀ f ∈ file.tables.db.fragments.rows, _))

instance (file : VectorFile) (load : SnapshotLoad) : Decidable (file.Undisturbed load) :=
  inferInstanceAs (Decidable (∀ snapshot ∈ file.snapshots load.agentId,
    ∀ dirty ∈ load.dirty, _ ∧ _))

instance SnapshotStep.decidableHarmless (host : SnapshotHost) (step : SnapshotStep)
    (s : SnapshotState) : Decidable (step.Harmless host s) :=
  match step with
  | .store p fragments =>
      inferInstanceAs (Decidable (host.ftsEnabled p = true ∨ ∀ f ∈ fragments,
        ∀ r ∈ s.file.servedPairs f.agentId, f.NotStale host.env.normalize f.agentId r))
  | .saveSnapshot p agentId fingerprint =>
      inferInstanceAs (Decidable ((s.file.saveSnapshot (host.ftsEnabled p) host.partRows agentId
        fingerprint (s.processes p).version (s.processes p).index).1 = true →
          ∀ r ∈ (s.processes p).index.vectorsOf agentId,
            '\n' ∉ r.1.toList ∧ s.file.Current host.env.normalize agentId r))
  | .readParts p =>
      inferInstanceAs (Decidable (∀ load ∈ (s.processes p).load, s.file.Undisturbed load))
  | .updateEmbedding .. | .markVectorsDirty .. | .forget .. | .write _ | .dropVectorSnapshot _
  | .restart .. | .index .. | .readVersion _ | .readMeta .. | .readDirty _ => isTrue trivial

instance (host : SnapshotHost) (s : SnapshotState) (p : Nat) :
    Decidable (s.ServesStored host p) :=
  inferInstanceAs (Decidable (∀ load ∈ (s.processes p).load, ∀ r ∈ load.served s.file,
    (∃ snapshot ∈ s.file.snapshots load.agentId, snapshot.fingerprint = load.fingerprint) ∧
      s.file.Current host.env.normalize load.agentId r))

/-- Vectors of length one, which are normal as they are. -/
def unitHost : SnapshotHost where
  py := .basic
  env :=
    { numpyInstalled := true
      autoNumpyThreshold := 2000
      normalize := fun v => v
      length_normalize := fun _ => rfl }
  ftsEnabled := fun _ => true

def vectorMemory (id : String) (embedding : List ℚ) : Fragment :=
  { id := id, content := "The gateway is on port 8080", blockId := none, scope := .agent
    tier := .episodic, agentId := "coder", sessionId := none, importance := 1 / 2
    state := .verified, confidence := 1, ttlSeconds := none, createdAt := 0, updatedAt := 0
    lastAccessedAt := none, tags := [], source := none, metadata := []
    embedding := some embedding, contradictionIds := [] }

/-- A process stores two memories and takes their vectors into its index. -/
def filledSteps : List SnapshotStep :=
  [.restart 0 .numpy, .store 0 [vectorMemory "x" [1, 0], vectorMemory "y" [0, 1]],
   .readVersion 0, .index 0 (.addMany ["x", "y"] [[1, 0], [0, 1]] (some "coder") 0 false)]

/-- Another process loads, up to the read of the parts. -/
def loadSteps : List SnapshotStep := [.readMeta 1 "coder" "hash:2", .readDirty 1]

def replacesX : SnapshotStep := .updateEmbedding "x" [0, 1]

def savesVectors : SnapshotStep := .saveSnapshot 0 "coder" "hash:2"

/-- A vector that is replaced after the save is left out. -/
theorem snapshotLoad_serves_stored_noted :
    let s := run (SnapshotStep.apply unitHost)
      (filledSteps ++ [savesVectors, replacesX] ++ loadSteps) (.start .empty 0)
    ((s.processes 1).load.map (SnapshotLoad.served s.file)) = some [("y", [0, 1])] ∧
      s.ServesStored unitHost 1 := by
  refine ⟨by decide +kernel, ?_⟩
  exact snapshotLoad_serves_stored unitHost .empty 0
    (filledSteps ++ [savesVectors, replacesX] ++ loadSteps) 1 (by decide +kernel)

/-- A vector that is replaced before the save is served: the version has not moved, and
the note is gone. -/
theorem replaced_vector_served :
    let s := run (SnapshotStep.apply unitHost)
      (filledSteps ++ [replacesX, savesVectors] ++ loadSteps) (.start .empty 0)
    ((s.processes 1).load.map (SnapshotLoad.served s.file)) =
        some [("x", [1, 0]), ("y", [0, 1])] ∧
      (s.file.tables.db.fragments.find? "x").map Fragment.embedding = some (some [0, 1]) ∧
      ¬ s.ServesStored unitHost 1 := by
  decide +kernel

end MarkSdk
