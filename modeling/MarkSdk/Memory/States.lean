import MarkSdk.Memory.JobRows

/-!
The states that promotion and maintenance give to memories.

`promote` goes through the transitions one by one and stores the last state.
A consolidation stores `VERIFIED` over whatever state the memory has, and the
other jobs leave the states alone. But for a promoted memory that is still
working memory, or has a time to live, each change that a call stores is a
transition, or two of them at once (`states_move`).
-/

namespace MarkSdk

open Lib

/-! ### The calls -/

/-- A promotion, or a maintenance job for an agent. -/
inductive CareCall : Type
  | promote (now : Int) (memoryId : String)
  | maintain (agentId : String) (job : MaintenanceJob)

/-- The call, with nothing in between. -/
def CareCall.step (py : Python) : CareCall → LocalStore → LocalStore
  | .promote now memoryId, s => (MarkSdk.promote py now memoryId).after s
  | .maintain agentId job, s => MaintenanceJob.step py (agentId, job) s

/-- The call is a consolidation that takes the memory over. -/
def CareCall.TakesOver (s : LocalStore) (f : Fragment) : CareCall → Prop
  | .maintain agentId (.consolidate gate threshold now) =>
      f.agentId = agentId ∧ TakenOver gate threshold now (s.membership agentId) f
  | _ => False

/-- What a call may make of the state of a memory. -/
inductive CareCall.Moves (s : LocalStore) (f : Fragment) : CareCall → MemoryState → Prop
  | stays (call : CareCall) : Moves s f call f.state
  | transition (call : CareCall) {state : MemoryState} (h : state ∈ f.state.transitions) :
      Moves s f call state
  /-- over `VERIFIED` -/
  | promotes (now : Int) (h : f.state = .unverified) : Moves s f (.promote now f.id) .promoted
  /-- over `UNVERIFIED` -/
  | verifies {call : CareCall} (h : f.state = .raw) (htakes : call.TakesOver s f) :
      Moves s f call .verified

/-- Each memory was there before, and its state has changed as the relation
says. -/
def StatesFrom (change : Fragment → MemoryState → Prop) (s₀ s : LocalStore) : Prop :=
  ∀ g ∈ s.db.fragments.rows, ∃ f ∈ s₀.db.fragments.rows, f.id = g.id ∧ change f g.state

instance decidableStatesFrom (change : Fragment → MemoryState → Prop)
    [∀ f state, Decidable (change f state)] (s₀ s : LocalStore) :
    Decidable (StatesFrom change s₀ s) :=
  inferInstanceAs (Decidable (∀ g ∈ s.db.fragments.rows, ∃ f ∈ s₀.db.fragments.rows,
    f.id = g.id ∧ change f g.state))

/-! ### Runs -/

theorem Fragment.promotedOnce_id (now : Int) (f : Fragment) : (f.promotedOnce now).id = f.id := by
  have hid (f : Fragment) (state : MemoryState) : (f.transitionTo now state).id = f.id := by
    unfold Fragment.transitionTo
    split <;> rfl
  unfold Fragment.promotedOnce
  dsimp only
  split <;> split <;> simp [hid]

theorem Fragment.promotedOnce_state (now : Int) (f : Fragment) :
    (f.promotedOnce now).state =
      if f.state = .unverified ∨ f.state = .verified then .promoted else f.state := by
  unfold Fragment.promotedOnce Fragment.transitionTo
  cases h : f.state <;> simp [h, MemoryState.transitions]

theorem moves_promote (s : LocalStore) (now : Int) (f : Fragment) :
    (CareCall.promote now f.id).Moves s f (f.promotedOnce now).state := by
  rw [Fragment.promotedOnce_state]
  split
  · rename_i hstate
    rcases hstate with hunverified | hverified
    · exact .promotes now hunverified
    · exact .transition _ (by rw [hverified]; decide)
  · exact .stays _

/-- A memory that is taken over and is not promoted. -/
theorem moves_takenOver {s : LocalStore} {f : Fragment} {call : CareCall}
    (htakes : call.TakesOver s f) (hquarantined : f.state ≠ .quarantined)
    (hcontradicted : f.state ≠ .contradicted) (hpromoted : f.state ≠ .promoted) :
    call.Moves s f .verified := by
  cases hstate : f.state with
  | raw => exact .verifies hstate htakes
  | unverified => exact .transition _ (by rw [hstate]; decide)
  | verified => exact hstate ▸ .stays call
  | promoted => exact absurd hstate hpromoted
  | quarantined => exact absurd hstate hquarantined
  | contradicted => exact absurd hstate hcontradicted

/-- What a call makes of a memory, unless it takes over a promoted one. -/
def CareCall.Legal (call : CareCall) (s : LocalStore) (f : Fragment) (state : MemoryState) : Prop :=
  ¬ (f.state = .promoted ∧ call.TakesOver s f) →
    call.Moves s f state ∧ (f.state = .promoted → state = .promoted)

theorem legal_step (py : Python) (call : CareCall) (s : LocalStore) :
    StatesFrom (call.Legal s) s (call.step py s) := by
  have hstays (call : CareCall) (f : Fragment) : call.Legal s f f.state := fun _ =>
    ⟨.stays call, id⟩
  have hbefore (call : CareCall) : StatesFrom (call.Legal s) s s := fun f hf =>
    ⟨f, hf, rfl, hstays call f⟩
  cases call with
  | promote now memoryId =>
      refine rows_promote py (hbefore _) fun f hf hid =>
        ⟨f, hf, (f.promotedOnce_id now).symm, fun _ => ?_⟩
      subst hid
      refine ⟨moves_promote s now f, fun hpromoted => ?_⟩
      rw [Fragment.promotedOnce_state, hpromoted]
      rfl
  | maintain agentId job =>
      cases job with
      | prune d edgeFloor now =>
          exact rows_prune py (hbefore _) (fun f hf _ => ⟨f, hf, rfl, hstays _ f⟩) edgeFloor
      | consolidate gate threshold now =>
          refine rows_consolidate py (hbefore _) fun f hf hagent htaken =>
            ⟨f, hf, rfl, fun hnot => ?_⟩
          have htakes : (CareCall.maintain agentId (.consolidate gate threshold now)).TakesOver s f :=
            ⟨hagent, htaken⟩
          have hpromoted : f.state ≠ .promoted := fun h => hnot ⟨h, htakes⟩
          exact ⟨moves_takenOver htakes htaken.quarantined htaken.contradicted hpromoted,
            fun h => absurd h hpromoted⟩
      | deduplicate cosine threshold sessionId =>
          exact rows_deduplicate py (hbefore _) (fun f hf _ => ⟨f, hf, rfl, hstays _ f⟩) cosine
            threshold sessionId

/-- At every step of a run. -/
theorem states_move (py : Python) (calls : List CareCall) (s : LocalStore) :
    Along (CareCall.step py) (fun call s => StatesFrom (call.Legal s) s (call.step py s)) calls s :=
  along_of_forall (fun call _ s => legal_step py call s) s

/-- Promotion stores `PROMOTED` over `UNVERIFIED`. -/
theorem promoted_at_once :
    ¬ ∀ (py : Python) (calls : List CareCall) (s : LocalStore),
      Along (CareCall.step py) (fun call s => StatesFrom
        (fun f state => state = f.state ∨ state ∈ f.state.transitions) s (call.step py s)) calls s := by
  intro hall
  exact absurd (hall .basic [.promote 5 "m"] (sealedStore "guest")) (by decide +kernel)

end MarkSdk
