import MarkSdk.Opening.Calls

/-!
The text indexes are in step with the memories.

Under the rowid of each memory stands the index row of its text, and nothing
else stands in the tables, as long as no call writes by the rowid of a row that
another process has replaced since the call read it. Once a store is encrypted
the tables are gone and do not come back.
-/

namespace MarkSdk

open Lib

variable {host : OpenHost} {store : OpenStore} {lastRowid : Nat}

/-! ### Runs -/

/-- A finishing call has read the rowid that its row still has. -/
def OpenStep.Current (step : OpenStep) (w : OpenWorld) : Prop :=
  match step with
  | .finish p _ _ =>
      match w.processes p with
      | some ⟨_, some (call, seen)⟩ => call.Current w.file seen
      | _ => True
  | _ => True

/-- What a process may take for granted of the indexes. -/
def OpenStore.Kept (store : OpenStore) (file : StoreFile) : Prop :=
  (store.Plain ∧ file.Filled) ∨
    ((store.Plain ∨ store.ftsEnabled = false ∧ store.provider.encrypting = true) ∧ file.Sealed)

/-- The indexes are right, and every process knows what there is. -/
structure OpenWorld.Right (host : OpenHost) (w : OpenWorld) : Prop where
  file : FtsRight host w.file
  kept : ∀ p process, w.processes p = some process → process.store.Kept w.file

/-- Sealing a file or filling its indexes suits every process. -/
theorem OpenStore.Kept.of_opened {file after : StoreFile} (h : store.Kept file)
    (hfilled : file.Filled → after.Filled ∨ after.Sealed) (hsealed : file.Sealed → after.Sealed) :
    store.Kept after := by
  rcases h with ⟨hplain, hfile⟩ | ⟨hstore, hfile⟩
  · rcases hfilled hfile with hafter | hafter
    · exact .inl ⟨hplain, hafter⟩
    · exact .inr ⟨.inl hplain, hafter⟩
  · exact .inr ⟨hstore, hsealed hfile⟩

/-- A step that changes the file and one process. -/
theorem OpenWorld.Right.of_update {processes : Nat → Option OpenProcess} {after : StoreFile}
    {p : Nat} {opened : Option OpenProcess} (hright : FtsRight host after)
    (hkept : ∀ q process, processes q = some process → process.store.Kept after)
    (hopened : ∀ process, opened = some process → process.store.Kept after) :
    OpenWorld.Right host ⟨after, Function.update processes p opened⟩ := by
  refine ⟨hright, fun q process hq => ?_⟩
  by_cases hqp : q = p
  · subst hqp
    simp only [Function.update_self] at hq
    exact hopened process hq
  · simp only [Function.update_of_ne hqp] at hq
    exact hkept q process hq

theorem OpenWorld.Right.opens {w : OpenWorld} (hfts5 : host.fts5 = true) (h : w.Right host)
    (p : Nat) (provider : EncryptionProvider) (moment : ByteArray) :
    ((OpenStep.opens p provider moment).apply host w).Right host := by
  unfold OpenStep.apply
  dsimp only
  split
  · exact h
  have hcase := @opened_initSchema host provider moment w.file hfts5
  generalize host.initSchema provider moment w.file = result at hcase ⊢
  cases hcase with
  | refused e herror =>
      exact .of_update h.file.guarded
        (fun q process hq => (h.kept q process hq).of_opened (fun hf => .inl hf.guarded)
          fun hs => hs.guarded)
        (by simp [Except.toOption])
  | plain hprovider hmark hok =>
      obtain ⟨hindexed, hfilled⟩ :=
        indexed_initFts hfts5 (@FtsRight.guarded host .noOp moment w.file h.file)
      refine .of_update hindexed.ftsRight (fun q process hq => ?_) fun process hnew => ?_
      · exact (h.kept q process hq).of_opened (fun _ => .inl hfilled)
          fun hs => absurd hs.encrypted hmark
      · simp only [Except.toOption, Option.map_some, Option.some.injEq] at hnew
        subst hnew
        exact .inl ⟨⟨rfl, rfl, rfl⟩, hfilled⟩
  | keyed hkey hok hafter hsealed =>
      refine .of_update hsealed.ftsRight (fun q process hq => ?_) fun process hnew => ?_
      · exact (h.kept q process hq).of_opened (fun _ => .inr hsealed) fun _ => hsealed
      · simp only [Except.toOption, Option.map_some, Option.some.injEq] at hnew
        subst hnew
        exact .inr ⟨.inr ⟨rfl, hkey⟩, hsealed⟩

theorem ftsRight_commit {file : StoreFile} {call : StoreCall} {seen : SeenRow} {fails : Bool}
    (h : FtsRight host file) (hkept : store.Kept file) (hcurrent : call.Current file seen) :
    FtsRight host (host.commit store fails lastRowid call seen file) := by
  rcases hkept with ⟨hplain, hfilled⟩ | ⟨-, hsealed⟩
  · unfold OpenHost.commit
    split
    · exact h
    · rename_i after hcall
      split
      · exact h
      · exact ((h.indexed hfilled).call hplain hcurrent hcall).ftsRight
  · exact ((commit_framed fails call seen file).sealed hsealed).ftsRight

theorem OpenWorld.Right.step {w : OpenWorld} {step : OpenStep} (hfts5 : host.fts5 = true)
    (h : w.Right host) (hcurrent : step.Current w) : (step.apply host w).Right host := by
  cases step with
  | opens p provider moment => exact h.opens hfts5 p provider moment
  | closes p => exact .of_update h.file h.kept (by simp)
  | begins p call =>
      unfold OpenStep.apply
      dsimp only
      split
      · rename_i store hp
        have hstore := h.kept p _ hp
        refine .of_update h.file h.kept fun process hnew => ?_
        cases hnew
        exact hstore
      · exact h
  | finish p fails lastRowid =>
      unfold OpenStep.apply
      dsimp only
      split
      · rename_i store call seen hp
        have hcurrent' : call.Current w.file seen := by simpa [OpenStep.Current, hp] using hcurrent
        have hframed := @commit_framed host store lastRowid fails call seen w.file
        have hkept : ∀ q process, w.processes q = some process → process.store.Kept _ :=
          fun q process hq => (h.kept q process hq).of_opened
            (fun hf => .inl ⟨hframed.info ▸ hf.1, hframed.info ▸ hf.2⟩) hframed.sealed
        refine .of_update (ftsRight_commit h.file (h.kept p _ hp) hcurrent') hkept
          fun process hnew => ?_
        have hstore := hkept p _ hp
        cases hnew
        exact hstore
      · exact h

/-! ### One writer -/

/-- A step of a process that only opens and closes, or any step of process `p`. -/
def OpenStep.WrittenBy (p : Nat) : OpenStep → Prop
  | .begins q _ => q = p
  | .finish q _ _ => q = p
  | .opens .. | .closes _ => True

theorem StoreCall.Current.of_rowids {file after : StoreFile} {seen : SeenRow} {call : StoreCall}
    (h : ∀ id, (after.seen id).map Prod.fst = (file.seen id).map Prod.fst)
    (hcurrent : call.Current file seen) : call.Current after seen := by
  unfold StoreCall.Current at hcurrent ⊢
  split at hcurrent
  · exact hcurrent.trans (h _).symm
  · exact hcurrent.trans (h _).symm
  · trivial

theorem current_look (file : StoreFile) (call : StoreCall) :
    call.Current file (call.look file) := by
  unfold StoreCall.Current
  split <;> first | rfl | trivial

/-- Opening a file moves no row. -/
theorem rowids_initSchema (host : OpenHost) (provider : EncryptionProvider) (moment : ByteArray)
    (file : StoreFile) (id : String) :
    ((host.initSchema provider moment file).1.seen id).map Prod.fst =
      (file.seen id).map Prod.fst := by
  have hfts : ∀ file : StoreFile, (host.initFts provider file).1.fragments = file.fragments := by
    intro file
    unfold OpenHost.initFts
    dsimp only
    split
    · rfl
    · split
      · rfl
      · split <;> rfl
  have hquarantine : ∀ file : StoreFile,
      ((host.quarantineUnreadable provider file).seen id).map Prod.fst =
        (file.seen id).map Prod.fst := by
    intro file
    have hfind := fun which => RowidTable.find?_update file.fragments which
      StoredRow.quarantined (fun _ => rfl) id
    rw [StoreFile.seen, StoreFile.seen, OpenHost.quarantineUnreadable, hfind]
    simp only [Option.map_map]
    rfl
  unfold OpenHost.initSchema
  dsimp only
  split
  · rfl
  · rw [StoreFile.seen, hfts]
    split
    · exact hquarantine _
    · rfl

/-- The call that the one writer has begun is up to date. -/
def OpenWorld.WriterCurrent (p : Nat) (w : OpenWorld) : Prop :=
  ∀ q store call seen, w.processes q = some ⟨store, some (call, seen)⟩ →
    q = p ∧ call.Current w.file seen

/-- Where one process writes, its calls act on what they have read. -/
theorem current_of_writtenBy {p : Nat} {steps : List OpenStep} {w : OpenWorld}
    (hw : w.WriterCurrent p) (hsteps : ∀ step ∈ steps, step.WrittenBy p) :
    Along (OpenStep.apply host) OpenStep.Current steps w := by
  induction steps generalizing w with
  | nil => trivial
  | cons step steps ih =>
      have hstep := hsteps step List.mem_cons_self
      have hrest := fun step hmem => hsteps step (List.mem_cons_of_mem _ hmem)
      refine ⟨?_, ih ?_ hrest⟩
      · unfold OpenStep.Current
        split
        · split
          · rename_i hq
            exact (hw _ _ _ _ hq).2
          · trivial
        · trivial
      · intro q store call seen hq
        cases step with
        | opens p' provider moment =>
            unfold OpenStep.apply at hq ⊢
            dsimp only at hq ⊢
            split at hq
            · exact hw q store call seen hq
            · by_cases hqp : q = p'
              · subst hqp
                simp [Except.toOption] at hq
              · simp only [Function.update_of_ne hqp] at hq
                obtain ⟨hqp, hcurrent⟩ := hw q store call seen hq
                exact ⟨hqp, hcurrent.of_rowids fun id => rowids_initSchema host _ _ _ id⟩
        | closes p' =>
            simp only [OpenStep.apply, Function.update_apply] at hq
            split at hq
            · cases hq
            · exact hw q store call seen hq
        | begins p' call' =>
            unfold OpenStep.apply at hq ⊢
            dsimp only at hq ⊢
            split at hq
            · by_cases hqp : q = p'
              · subst hqp
                simp only [Function.update_self] at hq
                cases hq
                exact ⟨hstep, current_look w.file call⟩
              · simp only [Function.update_of_ne hqp] at hq
                exact hw q store call seen hq
            · exact hw q store call seen hq
        | finish p' fails lastRowid =>
            unfold OpenStep.apply at hq ⊢
            dsimp only at hq ⊢
            split at hq
            · by_cases hqp : q = p'
              · subst hqp
                simp at hq
              · simp only [Function.update_of_ne hqp] at hq
                exact absurd ((hw q store call seen hq).1.trans hstep.symm) hqp
            · exact hw q store call seen hq

/-! ### The indexes of every run -/

theorem indexes_in_step (host : OpenHost) (hfts5 : host.fts5 = true) (file : StoreFile)
    (hfile : FtsRight host file) (steps : List OpenStep)
    (hcurrent : Along (OpenStep.apply host) OpenStep.Current steps (.start file)) :
    let w := run (OpenStep.apply host) steps (.start file)
    ∀ p process, w.processes p = some process →
      (process.store.provider.encrypting = false → w.file.info.encryptedAtRest ≠ some "1" →
        Indexed host w.file) ∧
      (process.store.provider.encrypting = true → w.file.fts = none ∧ w.file.ftsMl = none) := by
  have hstart : (OpenWorld.start file).Right host :=
    ⟨hfile, fun p process hp => by simp [OpenWorld.start] at hp⟩
  have hright := hcurrent.invariant (fun step w hw hstep => hw.step hfts5 hstep) hstart
  intro w p process hp
  rcases hright.kept p process hp with ⟨hplain, hfilled⟩ | ⟨-, hsealed⟩
  · refine ⟨fun _ _ => hright.file.indexed hfilled, fun hkey => ?_⟩
    simp [hplain.provider, EncryptionProvider.encrypting] at hkey
  · exact ⟨fun _ hmark => absurd hsealed.encrypted hmark, fun _ => ⟨hsealed.fts, hsealed.ftsMl⟩⟩

/-- The threads of one process wait for each other, so nothing is asked of them. -/
theorem one_writer_in_step (hfts5 : host.fts5 = true) {file : StoreFile}
    (hfile : FtsRight host file) {p : Nat} {steps : List OpenStep}
    (hsteps : ∀ step ∈ steps, step.WrittenBy p) :
    (run (OpenStep.apply host) steps (.start file)).Right host := by
  have hstart : (OpenWorld.start file).Right host :=
    ⟨hfile, fun q process hq => by simp [OpenWorld.start] at hq⟩
  have hnone : (OpenWorld.start file).WriterCurrent p :=
    fun q store call seen hq => by simp [OpenWorld.start] at hq
  have hcurrent : Along (OpenStep.apply host) OpenStep.Current steps (.start file) :=
    current_of_writtenBy hnone hsteps
  exact hcurrent.invariant (fun step w hw hstep => hw.step hfts5 hstep) hstart

instance decidableCallCurrent (file : StoreFile) (seen : SeenRow) :
    (call : StoreCall) → Decidable (call.Current file seen)
  | .storeMany (w :: _) =>
      inferInstanceAs (Decidable (seen.map Prod.fst = (file.seen w.fragment.id).map Prod.fst))
  | .delete id => inferInstanceAs (Decidable (seen.map Prod.fst = (file.seen id).map Prod.fst))
  | .storeMany [] | .clear _ | .update _ | .insertFact .. | .retractFacts _ | .deleteFacts _ =>
      isTrue trivial

instance decidableStepCurrent (w : OpenWorld) : (step : OpenStep) → Decidable (step.Current w)
  | .finish p _ _ =>
      match h : w.processes p with
      | some ⟨_, some (call, seen)⟩ =>
          decidable_of_iff (call.Current w.file seen) (by simp [OpenStep.Current, h])
      | some ⟨_, none⟩ => isTrue (by simp [OpenStep.Current, h])
      | none => isTrue (by simp [OpenStep.Current, h])
  | .opens .. | .closes _ | .begins .. => isTrue trivial

/-- A machine with FTS5. -/
def plainHost : OpenHost := ⟨.basic, .open_, fun _ => false, true⟩

/-- A process stores a note with a text. -/
def writesNote (p : Nat) (id text : String) : List OpenStep :=
  let note : Fragment :=
    { id := id, content := text, blockId := none, scope := .agent, tier := .semantic
      agentId := "agent", sessionId := none, importance := 1 / 2, state := .verified
      confidence := 1, ttlSeconds := none, createdAt := 0, updatedAt := 0, lastAccessedAt := none
      tags := [], source := none, metadata := [], embedding := none, contradictionIds := [] }
  [.begins p (.storeMany [⟨note, ByteArray.empty⟩]), .finish p false 0]

/-- Two processes open a new file and write the same memory in turn. -/
def twoWriters : List OpenStep :=
  [.opens 0 .noOp .empty, .opens 1 .noOp .empty] ++ writesNote 0 "a" "port 80" ++
    writesNote 1 "a" "端口"

theorem indexes_in_step_of_two :
    Indexed plainHost (run (OpenStep.apply plainHost) twoWriters (.start .empty)).file := by
  have hempty : FtsRight plainHost .empty :=
    ⟨fun h => by simp [StoreFile.empty] at h, fun h => by simp [StoreFile.empty] at h⟩
  have hcurrent : Along (OpenStep.apply plainHost) OpenStep.Current twoWriters (.start .empty) := by
    decide +kernel
  have hopen : (run (OpenStep.apply plainHost) twoWriters (.start .empty)).processes 1 =
      some ⟨⟨.noOp, true, true⟩, none⟩ := rfl
  exact (indexes_in_step plainHost rfl .empty hempty twoWriters hcurrent 1 _ hopen).1 rfl
    (by decide +kernel)

/-- A call that acts on an old rowid: between its read and its writes another
process deletes the row and stores one that gets the rowid. -/
example :
    let steps := [.opens 0 .noOp .empty, .opens 1 .noOp .empty] ++ writesNote 0 "a" "port 80" ++
      (writesNote 0 "a" "port 81").take 1 ++ [.begins 1 (.delete "a"), .finish 1 false 0] ++
      writesNote 1 "b" "door" ++ [.finish 0 false 0]
    let file := (run (OpenStep.apply plainHost) steps (.start .empty)).file
    (file.fragments.at? 1).map StoredRow.key = some "b" ∧
      (file.fts.bind fun fts => fts.get? 1).map FtsRow.fragmentId = some "a" := by decide +kernel

end MarkSdk
