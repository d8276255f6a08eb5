import MarkSdk.Context.WatchOrder

/-!
A watch worker comes to rest only when its tasks are done, and a stopped one
stays silent.

Who has the lock of the worker can always go on, so at rest the lock is free.
A task in the queue has its thread, and with a free lock that thread can go on
too. After a `stop` there is no thread any more and nothing will start one.
-/

namespace MarkSdk

open Lib

def CallPc.locked : CallPc → Bool
  | .submitLocked | .put | .unlocking | .stopLocked | .flagged _ => true
  | _ => false

/-- A call of `submit` before it has put its task or cancelled it. -/
def CallPc.asking : CallPc → Bool
  | .submitting | .submitLocked => true
  | _ => false

def RunPc.locked : RunPc → Bool
  | .looking | .resuming | .wokenLocked | .leaving => true
  | _ => false

namespace WatchWorker

variable {s t : WatchWorker}

/-! ### The owner of the lock -/

/-- The party is at a place where it has the lock. -/
def LockedAt (s : WatchWorker) : WatchParty → Prop
  | .call c => (s.calls c).locked = true
  | .thread w => (s.threads w).locked = true

/-- Whoever has the lock is at a place where it has it. -/
def Owner (s : WatchWorker) : Prop := ∀ p, s.lock = some p → s.LockedAt p

theorem Owner.of_call (h : s.Owner) {c : Nat} {pc : CallPc} {u : WatchWorker}
    (hcalls : u.calls = (s.setCall c pc).calls)
    (hthreads : ∀ w, s.threads w ≠ .new → u.threads w = s.threads w)
    (hother : ∀ q, q ≠ .call c → u.lock = some q → s.lock = some q)
    (hself : u.lock = some (.call c) → pc.locked = true) : u.Owner := by
  intro p hp
  by_cases heq : p = .call c
  · subst heq
    have hpc := hself hp
    simpa [LockedAt, hcalls, setCall] using hpc
  · have hold := h p (hother p heq hp)
    cases p with
    | call d =>
        have hne : d ≠ c := fun h => heq (congrArg _ h)
        show (u.calls d).locked = true
        rw [hcalls]
        exact (congrArg CallPc.locked (Function.update_of_ne hne ..)).trans hold
    | thread w =>
        have hne : s.threads w ≠ .new := by
          intro hnew
          simp [LockedAt, hnew, RunPc.locked] at hold
        show (u.threads w).locked = true
        rw [hthreads w hne]
        exact hold

theorem Owner.of_thread (h : s.Owner) {w : Nat} {pc : RunPc} {u : WatchWorker}
    (hthreads : u.threads = (s.setThread w pc).threads) (hcalls : u.calls = s.calls)
    (hother : ∀ q, q ≠ .thread w → u.lock = some q → s.lock = some q)
    (hself : u.lock = some (.thread w) → pc.locked = true) : u.Owner := by
  intro p hp
  by_cases heq : p = .thread w
  · subst heq
    have hpc := hself hp
    simpa [LockedAt, hthreads, setThread] using hpc
  · have hold := h p (hother p heq hp)
    cases p with
    | call d =>
        show (u.calls d).locked = true
        rw [hcalls]
        exact hold
    | thread v =>
        have hne : v ≠ w := fun h => heq (congrArg _ h)
        show (u.threads v).locked = true
        rw [hthreads]
        exact (congrArg RunPc.locked (Function.update_of_ne hne ..)).trans hold

/-- A party that is at a place without the lock does not have it. -/
theorem Owner.not_call (h : s.Owner) {c : Nat} (hpc : (s.calls c).locked = false) :
    s.lock ≠ some (.call c) := fun hlock => by simpa [LockedAt, hpc] using h _ hlock

theorem Owner.not_thread (h : s.Owner) {w : Nat} (hpc : (s.threads w).locked = false) :
    s.lock ≠ some (.thread w) := fun hlock => by simpa [LockedAt, hpc] using h _ hlock

theorem Owner.callStep (hall : assertions.All s) (h : s.Owner) (c : Nat) :
    (s.callStep c).Owner := by
  unfold WatchWorker.callStep
  cases hpc : s.calls c with
  | submitting | stopping =>
      simp only
      split
      · exact h.of_call rfl (fun _ _ => rfl) (fun q hq hlock => absurd (Option.some_inj.mp hlock).symm hq)
          fun _ => rfl
      · exact h
  | submitLocked =>
      simp only
      split <;> exact h.of_call rfl (fun _ _ => rfl) (fun _ _ => id) fun _ => rfl
  | put =>
      simp only
      split
      · exact h.of_call rfl (fun _ _ => rfl) (fun _ _ => id) fun _ => rfl
      · refine h.of_call rfl (fun w hw => ?_) (fun _ _ => id) fun _ => rfl
        have hshared : s.Shared := hall.1
        have hne : w ≠ s.started := fun heq => hw (hshared.unborn w (by omega))
        exact Function.update_of_ne hne ..
  | unlocking | flagged thread => exact h.of_call rfl (fun _ _ => rfl) nofun nofun
  | stopLocked => exact h.of_call rfl (fun _ _ => rfl) (fun _ _ => id) fun _ => rfl
  | draining thread =>
      have hnot := h.not_call (c := c) (by rw [hpc]; rfl)
      simp only
      split
      · exact h.of_call rfl (fun _ _ => rfl) (fun _ _ => id) fun hlock => absurd hlock hnot
      · exact h
      · exact h.of_call rfl (fun _ _ => rfl) (fun _ _ => id) fun hlock => absurd hlock hnot
  | drained thread =>
      have hnot := h.not_call (c := c) (by rw [hpc]; rfl)
      cases thread <;>
        exact h.of_call rfl (fun _ _ => rfl) (fun _ _ => id) fun hlock => absurd hlock hnot
  | cancelling thread f =>
      have hnot := h.not_call (c := c) (by rw [hpc]; rfl)
      exact h.of_call rfl (fun _ _ => rfl) (fun _ _ => id) fun hlock => absurd hlock hnot
  | joining w =>
      have hnot := h.not_call (c := c) (by rw [hpc]; rfl)
      simp only
      split
      · exact h.of_call rfl (fun _ _ => rfl) (fun _ _ => id) fun hlock => absurd hlock hnot
      · exact h
  | idle | returned | stopped => exact h

theorem Owner.threadStep (h : s.Owner) (w : Nat) : (s.threadStep w).Owner := by
  unfold WatchWorker.threadStep
  cases hpc : s.threads w with
  | waiting =>
      have hnot := h.not_thread (w := w) (by rw [hpc]; rfl)
      simp only
      split
      · exact h
      all_goals exact h.of_thread rfl rfl (fun _ _ => id) fun hlock => absurd hlock hnot
  | idle | woken =>
      simp only
      split
      · exact h.of_thread rfl rfl (fun q hq hlock => absurd (Option.some_inj.mp hlock).symm hq)
          fun _ => rfl
      · exact h
  | looking =>
      simp only
      split <;> exact h.of_thread rfl rfl (fun _ _ => id) fun _ => rfl
  | wokenLocked => exact h.of_thread rfl rfl (fun _ _ => id) fun _ => rfl
  | resuming | leaving => exact h.of_thread rfl rfl nofun nofun
  | got f | passed f =>
      have hnot := h.not_thread (w := w) (by rw [hpc]; rfl)
      simp only
      split <;> exact h.of_thread rfl rfl (fun _ _ => id) fun hlock => absurd hlock hnot
  | dropping f | running f =>
      have hnot := h.not_thread (w := w) (by rw [hpc]; rfl)
      exact h.of_thread rfl rfl (fun _ _ => id) fun hlock => absurd hlock hnot
  | new | ended => exact h

theorem Owner.keep (hall : assertions.All s) (h : s.Owner) (act : WatchAction) :
    (step act s).Owner := by
  cases act with
  | call c => exact h.callStep hall c
  | thread w => exact h.threadStep w
  | submit c | stop c =>
      rw [step]
      split
      · rename_i hpc
        have hnot := h.not_call (c := c) (by rw [hpc]; rfl)
        exact h.of_call rfl (fun _ _ => rfl) (fun _ _ => id) fun hlock => absurd hlock hnot
      · exact h
  | cancel f => exact h
  | giveUp c =>
      rw [step]
      split
      · rename_i hpc
        have hnot := h.not_call (c := c) (by rw [hpc]; rfl)
        exact h.of_call rfl (fun _ _ => rfl) (fun _ _ => id) fun hlock => absurd hlock hnot
      · exact h
  | timeOut w =>
      rw [step]
      split
      · rename_i hpc
        have hnot := h.not_thread (w := w) (by rw [hpc.1]; rfl)
        exact h.of_thread rfl rfl (fun _ _ => id) fun hlock => absurd hlock hnot
      · exact h

theorem owner_after (acts : List WatchAction) : (run step acts ({} : WatchWorker)).Owner :=
  all_new.invariant gives stable (fun act _ hall h => h.keep hall act) nofun acts

/-! ### What becomes of a submission -/

/-- The future was put into the queue, or is not pending any more. -/
def Settled (s : WatchWorker) (c : Nat) : Prop := c ∈ s.submitted ∨ s.futures c ≠ .pending

/-- Every call of `submit` has settled its future, or is about to. -/
def Answers (s : WatchWorker) : Prop :=
  ∀ c ∈ s.asked, (s.calls c).asking = true ∨ s.Settled c

theorem Settled.cancel {c : Nat} (h : s.Settled c) (f : Nat) : (s.cancel f).Settled c := by
  refine h.imp_right fun hdone hpending => ?_
  obtain hsame | hcancelled := futures_cancel s f c
  · exact hdone (hsame ▸ hpending)
  · simp [hpending, FutureState.isDone] at hcancelled

theorem Settled.setFuture {c f : Nat} {state : FutureState} (h : s.Settled c)
    (hstate : state ≠ .pending) : (s.setFuture f state).Settled c := by
  refine h.imp_right fun hdone => ?_
  by_cases heq : c = f
  · subst heq
    simpa [WatchWorker.setFuture] using hstate
  · simpa [WatchWorker.setFuture, Function.update_of_ne heq] using hdone

/-- A call settles its own future only. -/
theorem callStep_calls_of_ne {c d : Nat} (hne : c ≠ d) : (s.callStep d).calls c = s.calls c := by
  have hset : ∀ pc, (s.setCall d pc).calls c = s.calls c := fun pc => Function.update_of_ne hne ..
  unfold callStep
  cases s.calls d with
  | drained thread => cases thread <;> exact hset _
  | submitting | submitLocked | put | stopping | joining w | draining thread =>
      simp only
      split <;> first | exact hset _ | rfl
  | unlocking | stopLocked | flagged thread | cancelling thread f => exact hset _
  | idle | returned | stopped => rfl

theorem Settled.callStep {c : Nat} (h : s.Settled c) (d : Nat) : (s.callStep d).Settled c := by
  unfold WatchWorker.callStep
  cases s.calls d with
  | submitLocked =>
      simp only
      split
      · exact h.cancel d
      · exact h.imp_left fun hin => List.mem_append_left _ hin
  | cancelling thread f => exact h.cancel f
  | drained thread => cases thread <;> exact h
  | submitting | put | stopping | joining w | draining thread =>
      simp only
      split <;> exact h
  | unlocking | stopLocked | flagged thread => exact h
  | idle | returned | stopped => exact h

theorem Settled.threadStep {c : Nat} (h : s.Settled c) (w : Nat) :
    (s.threadStep w).Settled c := by
  unfold WatchWorker.threadStep
  cases s.threads w with
  | passed f =>
      simp only
      split
      · exact h.setFuture FutureState.noConfusion
      · exact h.cancel f
  | dropping f => exact h.cancel f
  | running f => exact h.setFuture FutureState.noConfusion
  | waiting | idle | looking | woken | got f =>
      simp only
      split <;> exact h
  | resuming | wokenLocked | leaving => exact h
  | new | ended => exact h

theorem Answers.callStep (h : s.Answers) (d : Nat) : (s.callStep d).Answers := by
  have hasked : (s.callStep d).asked = s.asked := by
    unfold WatchWorker.callStep
    cases s.calls d with
    | drained thread => cases thread <;> rfl
    | submitting | submitLocked | put | stopping | joining w | draining thread =>
        simp only
        split <;> rfl
    | _ => rfl
  intro c hc
  rw [hasked] at hc
  by_cases heq : c = d
  · subst heq
    rcases h c hc with hasking | hsettled
    · unfold WatchWorker.callStep
      cases hpc : s.calls c with
      | submitting =>
          simp only
          split
          · exact .inl (by simp [setCall, CallPc.asking])
          · exact .inl (by rw [hpc]; rfl)
      | submitLocked =>
          -- refused by a stopped worker, or put into the queue
          simp only
          split
          · exact .inr (.inr (not_pending_cancel s c))
          · exact .inr (.inl (List.mem_append_right _ List.mem_cons_self))
      | _ => simp [hpc, CallPc.asking] at hasking
    · exact .inr (hsettled.callStep c)
  · rw [callStep_calls_of_ne heq]
    exact (h c hc).imp_right fun hsettled => hsettled.callStep d

theorem Answers.keep (h : s.Answers) (act : WatchAction) : (step act s).Answers := by
  cases act with
  | call d => exact h.callStep d
  | thread w =>
      have hsame : (s.threadStep w).asked = s.asked ∧ (s.threadStep w).calls = s.calls := by
        unfold WatchWorker.threadStep
        cases s.threads w with
        | waiting | idle | looking | woken | got f | passed f =>
            simp only
            split <;> exact ⟨rfl, rfl⟩
        | _ => exact ⟨rfl, rfl⟩
      intro c hc
      rw [step, hsame.1] at hc
      rw [step, hsame.2]
      exact (h c hc).imp_right fun hsettled => hsettled.threadStep w
  | submit d =>
      rw [step]
      split
      · intro c hc
        by_cases heq : c = d
        · subst heq
          exact .inl (by simp [setCall, CallPc.asking])
        · have hold : c ∈ s.asked := by
            rcases List.mem_append.mp hc with hold | hnew
            · exact hold
            · exact absurd (List.mem_singleton.mp hnew) heq
          have hcalls : (s.setCall d .submitting).calls c = s.calls c := Function.update_of_ne heq ..
          show ((s.setCall d .submitting).calls c).asking = true ∨ _
          rw [hcalls]
          exact h c hold
      · exact h
  | stop d =>
      rw [step]
      split
      · rename_i hidle
        intro c hc
        by_cases heq : c = d
        · subst heq
          exact .inr ((h c hc).resolve_left (by simp [hidle, CallPc.asking]))
        · have hcalls : (s.setCall d .stopping).calls c = s.calls c := Function.update_of_ne heq ..
          rw [hcalls]
          exact h c hc
      · exact h
  | cancel f => exact fun c hc => (h c hc).imp_right fun hsettled => hsettled.cancel f
  | giveUp d =>
      rw [step]
      split
      · rename_i w hjoining
        intro c hc
        by_cases heq : c = d
        · subst heq
          exact .inr ((h c hc).resolve_left (by simp [hjoining, CallPc.asking]))
        · have hcalls : (s.setCall d .returned).calls c = s.calls c := Function.update_of_ne heq ..
          rw [hcalls]
          exact h c hc
      · exact h
  | timeOut w =>
      rw [step]
      split <;> exact h

theorem answers_after (acts : List WatchAction) : (run step acts ({} : WatchWorker)).Answers :=
  all_new.invariant gives stable (fun act _ _ h => h.keep act) nofun acts

/-! ### At rest -/

/-- Nobody can take a step. Calls that are not made yet and time-outs do not count. -/
structure AtRest (s : WatchWorker) : Prop where
  calls : ∀ c, s.callStep c = s
  threads : ∀ w, s.threadStep w = s

/-- A locked place is never one where a step waits. -/
theorem AtRest.lock_eq_none (h : s.AtRest) (howner : s.Owner) : s.lock = none := by
  rw [Option.eq_none_iff_forall_ne_some]
  intro p hlock
  have hat := howner p hlock
  cases p with
  | call c =>
      have hstay := congrArg (fun s => s.calls c) (h.calls c)
      rw [LockedAt] at hat
      cases hpc : s.calls c with
      | submitLocked | put =>
          simp only [callStep, hpc] at hstay
          split at hstay <;> simp [setCall] at hstay
      | unlocking | stopLocked | flagged thread => simp [callStep, hpc, setCall] at hstay
      | _ => simp [hpc, CallPc.locked] at hat
  | thread w =>
      have hstay := congrArg (fun s => s.threads w) (h.threads w)
      rw [LockedAt] at hat
      cases hpc : s.threads w with
      | looking =>
          simp only [threadStep, hpc] at hstay
          split at hstay <;> simp [setThread] at hstay
      | resuming | wokenLocked | leaving => simp [threadStep, hpc, setThread] at hstay
      | _ => simp [hpc, RunPc.locked] at hat

/-- With a free lock the thread in the loop waits for a task, and there is none. -/
theorem AtRest.waiting (h : s.AtRest) (hfree : s.lock = none) {w : Nat}
    (hw : (s.threads w).inLoop = true) : s.threads w = .waiting ∧ s.queue = [] := by
  have hstay := congrArg (fun s => s.threads w) (h.threads w)
  cases hpc : s.threads w with
  | waiting =>
      simp only [threadStep, hpc] at hstay
      split at hstay
      · rename_i hqueue
        exact ⟨rfl, hqueue⟩
      all_goals simp [setThread] at hstay
  | idle | woken => simp [threadStep, hpc, hfree, setThread] at hstay
  | looking | got f | passed f =>
      simp only [threadStep, hpc] at hstay
      split at hstay <;> simp [setThread] at hstay
  | resuming | wokenLocked | dropping f | running f => simp [threadStep, hpc, setThread] at hstay
  | new | leaving | ended => simp [hpc, RunPc.inLoop] at hw

theorem inLoop_of_thread (hall : assertions.All s) {w : Nat} (hw : s.thread = some w) :
    (s.threads w).inLoop = true := by
  have hok : s.ThreadOk w := hall.2 (.thread w)
  rw [ThreadOk] at hok
  cases hpc : s.threads w with
  | new | ended =>
      simp only [hpc] at hok
      exact absurd hw hok
  | leaving =>
      simp only [hpc] at hok
      exact absurd hw hok.1
  | _ => rfl

theorem AtRest.queue_of_task (h : s.AtRest) (hall : assertions.All s) (howner : s.Owner) :
    ¬ s.HasTask := by
  intro htask
  have hfree := h.lock_eq_none howner
  have hshared : s.Shared := hall.1
  obtain ⟨w, hw⟩ := Option.ne_none_iff_exists'.mp (hshared.tasks (by simp [hfree]) htask)
  obtain ⟨f, hf⟩ := htask
  rw [(h.waiting hfree (inLoop_of_thread hall hw)).2] at hf
  cases hf

/-- Whoever has a future in hand can go on. -/
theorem AtRest.not_heldBy (h : s.AtRest) (hall : assertions.All s) (howner : s.Owner) (f : Nat) :
    ¬ s.HeldBy f := by
  rintro (hmem | ⟨w, hw⟩ | ⟨c, hc⟩)
  · exact h.queue_of_task hall howner ⟨f, hmem⟩
  · have hloop : (s.threads w).inLoop = true := by
      cases hpc : s.threads w <;> simp [hpc, RunPc.hand, RunPc.inLoop] at hw ⊢
    simp [(h.waiting (h.lock_eq_none howner) hloop).1, RunPc.hand] at hw
  · have hstay := congrArg (fun s => s.calls c) (h.calls c)
    cases hpc : s.calls c with
    | cancelling thread g => simp [callStep, hpc, setCall] at hstay
    | _ => simp [hpc, CallPc.hand] at hc

/-- With a free lock a submission goes on. -/
theorem AtRest.not_asking (h : s.AtRest) (hfree : s.lock = none) (c : Nat) :
    (s.calls c).asking = false := by
  have hstay := congrArg (fun s => s.calls c) (h.calls c)
  cases hpc : s.calls c with
  | submitting => simp [callStep, hpc, hfree, setCall] at hstay
  | submitLocked =>
      simp only [callStep, hpc] at hstay
      split at hstay <;> simp [setCall] at hstay
  | _ => rfl

/-- No task is lost, and nothing waits for ever: whatever was submitted,
stopped and cancelled at the same time, when nobody can take a step any more,
the lock is free and the future of every submission has its result or is
cancelled, that of one which a stopped worker refused too. -/
theorem nothing_lost (acts : List WatchAction)
    (hrest : (run step acts ({} : WatchWorker)).AtRest) :
    (run step acts ({} : WatchWorker)).lock = none ∧
      ∀ f ∈ (run step acts ({} : WatchWorker)).asked,
        ((run step acts ({} : WatchWorker)).futures f).isDone = true := by
  have hall := all_after acts
  have howner := owner_after acts
  have hheld := held_after acts
  have hanswers := answers_after acts
  generalize run step acts ({} : WatchWorker) = s at hrest hall howner hheld hanswers
  have hfree := hrest.lock_eq_none howner
  refine ⟨hfree, fun f hf => ?_⟩
  have hsettled : s.Settled f :=
    (hanswers f hf).resolve_left (by simp [hrest.not_asking hfree f])
  cases hstate : s.futures f with
  | pending =>
      obtain hput | hdone := hsettled
      · exact absurd (hheld.pending f hput hstate) (hrest.not_heldBy hall howner f)
      · exact absurd hstate hdone
  | running =>
      obtain ⟨w, hw⟩ := hheld.running f hstate
      have hwait := (hrest.waiting hfree (w := w) (by rw [hw]; rfl)).1
      simp [hw] at hwait
  | cancelled | finished => rfl

/-- A task that is submitted, run and done, a second one that is cancelled
before its turn, and a third one that comes after a stop. -/
theorem nothing_lost_of_three :
    let acts : List WatchAction :=
      [.submit 0, .call 0, .call 0, .call 0, .call 0, .submit 1, .thread 0, .call 1, .call 1,
        .call 1, .call 1, .thread 0, .cancel 1, .thread 0, .thread 0, .thread 0, .thread 0,
        .thread 0, .stop 2, .call 2, .call 2, .call 2, .call 2, .call 2, .thread 0, .thread 0,
        .thread 0, .thread 0, .call 2, .submit 3, .call 3, .call 3, .call 3]
    (run step acts ({} : WatchWorker)).lock = none ∧
      ∀ f ∈ (run step acts ({} : WatchWorker)).asked,
        ((run step acts ({} : WatchWorker)).futures f).isDone = true := by
  intro acts
  refine nothing_lost acts ⟨fun c => ?_, fun w => ?_⟩
  · match c with
    | 0 | 1 | 2 | 3 | c + 4 => rfl
  · match w with
    | 0 | w + 1 => rfl

/-! ### After a stop -/

/-- What the state `t` may be after the flag was set in `s`: the tasks are those
of `s`, and perhaps the one that a thread had already tested. -/
def Late (s t : WatchWorker) : Prop :=
  t.stopped = true ∧
    ((t.ran = s.ran ∧ ∀ w f, t.threads w = .passed f → s.threads w = .passed f) ∨
      (∃ w f, s.threads w = .passed f ∧ t.ran = s.ran ++ [f]) ∧
        ∀ w f, t.threads w ≠ .passed f)

/-- A step that begins no task and puts no thread behind the test. -/
theorem Late.of_same {u : WatchWorker} (h : s.Late t) (hstop : u.stopped = true)
    (hran : u.ran = t.ran) (hthreads : ∀ w f, u.threads w = .passed f → t.threads w = .passed f) :
    s.Late u := by
  refine ⟨hstop, h.2.imp ?_ ?_⟩
  · exact fun hsame => ⟨hran.trans hsame.1, fun w f hw => hsame.2 w f (hthreads w f hw)⟩
  · rintro ⟨⟨w, f, hw, hone⟩, hnot⟩
    exact ⟨⟨w, f, hw, hran.trans hone⟩, fun v g hv => hnot v g (hthreads v g hv)⟩

theorem passed_setThread {w v f : Nat} {pc : RunPc} (hpc : ∀ g, pc ≠ .passed g)
    (h : (t.setThread w pc).threads v = .passed f) : t.threads v = .passed f := by
  change Function.update t.threads w pc v = .passed f at h
  by_cases heq : v = w
  · subst heq
    rw [Function.update_self] at h
    exact absurd h (hpc f)
  · rwa [Function.update_of_ne heq] at h

theorem Late.begin (hall : assertions.All t) (h : s.Late t) {w f : Nat}
    (hpc : t.threads w = .passed f) :
    s.Late { (t.setFuture f .running).setThread w (.running f) with ran := t.ran ++ [f] } := by
  obtain ⟨hstop, ⟨hran, hpassed⟩ | ⟨-, hnot⟩⟩ := h
  · refine ⟨hstop, .inr ⟨⟨w, f, hpassed w f hpc, by rw [hran]⟩, fun v g hv => ?_⟩⟩
    have hother : t.threads v = .passed g :=
      @passed_setThread t w v g (.running f) nofun hv
    have hloop := thread_of_inLoop hall (w := v) (by rw [hother]; rfl)
    rw [thread_of_inLoop hall (w := w) (by rw [hpc]; rfl), Option.some_inj] at hloop
    subst hloop
    simp [setThread] at hv
  · exact absurd hpc (hnot w f)

theorem Late.keep (hall : assertions.All t) (h : s.Late t) (act : WatchAction) :
    s.Late (step act t) := by
  have hstop : (step act t).stopped = true := (gives act t hall).2.2.stopped h.1
  cases act with
  | thread w =>
      rw [step, threadStep] at hstop ⊢
      cases hpc : t.threads w with
      | passed f =>
          simp only [hpc] at hstop ⊢
          split
          · exact h.begin hall hpc
          · exact h.of_same h.1 rfl fun v g => passed_setThread (by simp)
      | got f =>
          simp only [h.1, if_true]
          exact h.of_same h.1 rfl fun v g => passed_setThread (by simp)
      | waiting | idle | woken | looking =>
          simp only [hpc] at hstop ⊢
          split <;> first | exact h | exact h.of_same h.1 rfl fun v g => passed_setThread (by simp)
      | resuming | leaving | wokenLocked | dropping f | running f =>
          exact h.of_same h.1 rfl fun v g => passed_setThread (by simp)
      | new | ended => exact h
  | call c =>
      rw [step, callStep] at hstop ⊢
      cases hpc : t.calls c with
      | put =>
          have hok : t.CallOk c := hall.2 (.call c)
          rw [CallOk] at hok
          simp [hpc, h.1] at hok
      | submitLocked =>
          simp only [h.1, if_true]
          exact h.of_same h.1 rfl fun _ _ => id
      | submitting | stopping | joining w =>
          simp only [hpc] at hstop ⊢
          split <;> exact h
      | draining thread =>
          simp only [hpc] at hstop ⊢
          split <;> exact h.of_same h.1 rfl fun _ _ => id
      | drained thread => cases thread <;> exact h.of_same h.1 rfl fun _ _ => id
      | stopLocked => exact h.of_same rfl rfl fun _ _ => id
      | unlocking | flagged thread | cancelling thread f =>
          exact h.of_same h.1 rfl fun _ _ => id
      | idle | returned | stopped => exact h
  | submit c | stop c =>
      rw [step] at hstop ⊢
      split <;> exact h
  | cancel f => exact h.of_same h.1 rfl fun _ _ => id
  | giveUp c =>
      rw [step] at hstop ⊢
      split <;> exact h
  | timeOut w =>
      rw [step] at hstop ⊢
      split
      · exact h.of_same h.1 rfl fun v g => passed_setThread (by simp)
      · exact h

/-- From the moment that the flag of `stop` is set at most one task begins,
the one that a thread had tested before. -/
theorem one_more_after_flag (acts later : List WatchAction)
    (hstop : (run step acts ({} : WatchWorker)).stopped = true) :
    (run step (acts ++ later) ({} : WatchWorker)).ran = (run step acts ({} : WatchWorker)).ran ∨
      ∃ w f, (run step acts ({} : WatchWorker)).threads w = .passed f ∧
        (run step (acts ++ later) ({} : WatchWorker)).ran =
          (run step acts ({} : WatchWorker)).ran ++ [f] := by
  have hall := all_after acts
  rw [run_append]
  have hlate : Late (run step acts ({} : WatchWorker))
      (run step later (run step acts ({} : WatchWorker))) :=
    hall.invariant gives stable (fun act _ ht h => h.keep ht act)
      ⟨hstop, .inl ⟨rfl, fun _ _ => id⟩⟩ later
  exact hlate.2.imp And.left And.left

/-- The stop comes between the test and the begin of the task. -/
theorem one_more_after_flag_of_passed :
    let acts : List WatchAction :=
      [.submit 0, .call 0, .call 0, .call 0, .call 0, .thread 0, .thread 0, .stop 1, .call 1,
        .call 1]
    let later : List WatchAction := [.thread 0, .thread 0, .call 1]
    (run step (acts ++ later) ({} : WatchWorker)).ran = (run step acts ({} : WatchWorker)).ran ∨
      ∃ w f, (run step acts ({} : WatchWorker)).threads w = .passed f ∧
        (run step (acts ++ later) ({} : WatchWorker)).ran =
          (run step acts ({} : WatchWorker)).ran ++ [f] := by
  intro acts later
  exact one_more_after_flag acts later (by decide)

/-- Stopped, with no thread and no task. -/
structure Silent (s : WatchWorker) : Prop where
  stopped : s.stopped = true
  thread : s.thread = none
  noTask : ¬ s.HasTask

theorem Silent.of_stopped (hall : assertions.All s) {c : Nat} (hc : s.calls c = .stopped) :
    s.Silent := by
  have hok : s.CallOk c := hall.2 (.call c)
  rw [CallOk] at hok
  simp only [hc] at hok
  exact ⟨hok.1.1, hok.2, hok.1.2⟩

theorem Silent.not_inLoop (hall : assertions.All s) (h : s.Silent) (w : Nat) :
    (s.threads w).inLoop = false := by
  rw [← Bool.not_eq_true]
  intro hw
  have hthread := thread_of_inLoop hall hw
  rw [h.thread] at hthread
  cases hthread

/-- What a silent worker still does: no task is put, none is begun. -/
theorem Silent.keep (hall : assertions.All s) (h : s.Silent) (act : WatchAction) :
    (step act s).Silent ∧ (step act s).ran = s.ran ∧ (step act s).submitted = s.submitted := by
  have hg : Guarantee (actor act) s (step act s) := (gives act s hall).2.2
  have hdrained : (step act s).Drained := hg.drained ⟨h.stopped, h.noTask⟩
  have hthread : (step act s).thread = none := by
    obtain hsame | hgone := hg.shut h.stopped
    · exact hsame.trans h.thread
    · exact hgone
  refine ⟨⟨hdrained.1, hthread, hdrained.2⟩, ?_⟩
  cases act with
  | call c =>
      have hok : s.CallOk c := hall.2 (.call c)
      rw [step, callStep]
      cases hpc : s.calls c with
      | submitLocked => simp [h.stopped, setCall, cancel, setFuture]
      | put =>
          rw [CallOk] at hok
          simp [hpc, h.stopped] at hok
      | submitting | stopping | joining w =>
          simp only
          split <;> exact ⟨rfl, rfl⟩
      | draining thread =>
          simp only
          split <;> exact ⟨rfl, rfl⟩
      | drained thread => cases thread <;> exact ⟨rfl, rfl⟩
      | _ => exact ⟨rfl, rfl⟩
  | thread w =>
      have hw := h.not_inLoop hall w
      rw [step, threadStep]
      cases hpc : s.threads w with
      | new | leaving | ended => exact ⟨rfl, rfl⟩
      | _ => simp [hpc, RunPc.inLoop] at hw
  | submit c | stop c | timeOut c =>
      rw [step]
      split <;> exact ⟨rfl, rfl⟩
  | cancel f => exact ⟨rfl, rfl⟩
  | giveUp c =>
      rw [step]
      split <;> exact ⟨rfl, rfl⟩

/-- Once a `stop` has returned that has waited for the thread, or found none,
the worker is silent whatever is called later: no task runs or is begun, no
task is put, and a pending future is one that another `stop` is about to cancel. -/
theorem silent_after_stop (acts later : List WatchAction) {c : Nat}
    (hc : (run step acts ({} : WatchWorker)).calls c = .stopped) :
    (run step (acts ++ later) ({} : WatchWorker)).ran = (run step acts ({} : WatchWorker)).ran ∧
      (run step (acts ++ later) ({} : WatchWorker)).submitted =
        (run step acts ({} : WatchWorker)).submitted ∧
      (∀ w f, (run step (acts ++ later) ({} : WatchWorker)).threads w ≠ .running f) ∧
      ∀ f ∈ (run step (acts ++ later) ({} : WatchWorker)).submitted,
        (run step (acts ++ later) ({} : WatchWorker)).futures f = .pending →
        ∃ d, ((run step (acts ++ later) ({} : WatchWorker)).calls d).hand = some f := by
  have hall := all_after acts
  have hheld := held_after (acts ++ later)
  have hall' := all_after (acts ++ later)
  rw [run_append] at hheld hall' ⊢
  generalize run step acts ({} : WatchWorker) = s at hc hall hheld hall'
  have hsilent : (run step later s).Silent ∧ (run step later s).ran = s.ran ∧
      (run step later s).submitted = s.submitted :=
    hall.invariant gives stable (I := fun t => t.Silent ∧ t.ran = s.ran ∧ t.submitted = s.submitted)
      (fun act t ht h => by
        obtain ⟨hkeep, hran, hsub⟩ := h.1.keep ht act
        exact ⟨hkeep, hran.trans h.2.1, hsub.trans h.2.2⟩)
      ⟨.of_stopped hall hc, rfl, rfl⟩ later
  generalize run step later s = t at hsilent hheld hall'
  obtain ⟨hsilent, hran, hsub⟩ := hsilent
  refine ⟨hran, hsub, fun w f hw => ?_, fun f hf hpending => ?_⟩
  · have hloop := hsilent.not_inLoop hall' w
    simp [hw, RunPc.inLoop] at hloop
  · obtain hmem | ⟨w, hw⟩ | hcall := hheld.pending f hf hpending
    · exact absurd ⟨f, hmem⟩ hsilent.noTask
    · have hloop := hsilent.not_inLoop hall' w
      cases hpc : t.threads w <;> simp [hpc, RunPc.hand, RunPc.inLoop] at hw hloop
    · exact hcall

/-- A stop while a task runs and another one waits, and a submission after it. -/
theorem silent_after_stop_of_running :
    let acts : List WatchAction :=
      [.submit 0, .call 0, .call 0, .call 0, .call 0, .submit 1, .call 1, .call 1, .call 1,
        .call 1, .thread 0, .thread 0, .thread 0, .stop 2, .call 2, .call 2, .call 2, .call 2,
        .call 2, .call 2, .call 2, .thread 0, .thread 0, .thread 0, .thread 0, .thread 0, .call 2]
    let later : List WatchAction := [.submit 3, .call 3, .call 3, .call 3]
    (run step (acts ++ later) ({} : WatchWorker)).ran = [0] ∧
      (run step (acts ++ later) ({} : WatchWorker)).submitted = [0, 1] := by
  intro acts later
  have hsilent := silent_after_stop acts later (c := 2) (by decide)
  exact ⟨hsilent.1.trans (by decide), hsilent.2.1.trans (by decide)⟩

end WatchWorker

end MarkSdk
