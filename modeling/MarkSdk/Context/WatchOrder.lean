import MarkSdk.Context.WatchTurns

/-!
The tasks of a watch worker run one at a time and in order, and none is lost.

What is taken out of the queue, by the thread or by a stop, is taken from its
head, so the tasks that run are some of those submitted, in that order. A
future that is still pending is in the queue or in somebody's hands.
-/

namespace MarkSdk

open Lib

/-- The future whose task a thread may begin next. -/
def RunPc.next : RunPc → Option Nat
  | .got f | .passed f => some f
  | _ => none

/-- The future that a thread has taken out of the queue and not begun. -/
def RunPc.hand : RunPc → Option Nat
  | .got f | .passed f | .dropping f => some f
  | _ => none

/-- The future that a `stop` has taken out of the queue and not cancelled. -/
def CallPc.hand : CallPc → Option Nat
  | .cancelling _ f => some f
  | _ => none

/-- Behind `_queue.put`. -/
def CallPc.hasPut : CallPc → Bool
  | .put | .unlocking | .returned => true
  | _ => false

theorem RunPc.inLoop_of_next {pc : RunPc} {f : Nat} (h : pc.next = some f) : pc.inLoop = true := by
  cases pc <;> first | rfl | cases h

namespace WatchWorker

variable {s t : WatchWorker}

def tasks (s : WatchWorker) : List Nat := s.queue.filterMap id

/-! ### In the order of submission -/

/-- What was submitted is what was taken and then what is in the queue, and
of what was taken the tasks have run in this order. -/
structure InOrder (s : WatchWorker) : Prop where
  nodup : s.submitted.Nodup
  hasPut : ∀ c ∈ s.submitted, (s.calls c).hasPut = true
  taken : ∃ taken, s.submitted = taken ++ s.tasks ∧ s.ran.Sublist taken ∧
    ∀ w f, (s.threads w).next = some f → (s.ran ++ [f]).Sublist taken

/-- A step that takes some tasks from the head of the queue, and puts one that
it has taken into a hand. -/
theorem InOrder.of_taken (h : s.InOrder) (dropped : List Nat)
    (hput : ∀ c, (s.calls c).hasPut = true → (t.calls c).hasPut = true)
    (hsub : t.submitted = s.submitted) (hran : t.ran = s.ran)
    (htasks : s.tasks = dropped ++ t.tasks)
    (hnext : ∀ w f, (t.threads w).next = some f →
      (s.threads w).next = some f ∨ dropped = [f]) : t.InOrder := by
  obtain ⟨taken, hsplit, hsublist, hhand⟩ := h.taken
  have hgrow : taken.Sublist (taken ++ dropped) := List.sublist_append_left taken dropped
  refine ⟨hsub ▸ h.nodup, fun c hc => hput c (h.hasPut c (hsub ▸ hc)), taken ++ dropped, ?_, ?_, ?_⟩
  · rw [hsub, hsplit, htasks, List.append_assoc]
  · exact hran ▸ hsublist.trans hgrow
  · intro w f hf
    rw [hran]
    obtain hold | rfl := hnext w f hf
    · exact (hhand w f hold).trans hgrow
    · exact hsublist.append (List.Sublist.refl [f])

theorem hasPut_setCall {c : Nat} {pc : CallPc}
    (hpc : (s.calls c).hasPut = true → pc.hasPut = true) (d : Nat)
    (hd : (s.calls d).hasPut = true) : ((s.setCall c pc).calls d).hasPut = true := by
  show (Function.update s.calls c pc d).hasPut = true
  by_cases heq : d = c
  · subst heq
    rw [Function.update_self]
    exact hpc hd
  · rwa [Function.update_of_ne heq]

theorem next_setThread {w v f : Nat} {pc : RunPc} {P : Prop}
    (hpc : pc.next = some f → (s.threads w).next = some f ∨ P)
    (h : ((s.setThread w pc).threads v).next = some f) : (s.threads v).next = some f ∨ P := by
  change (Function.update s.threads w pc v).next = some f at h
  by_cases heq : v = w
  · subst heq
    rw [Function.update_self] at h
    exact hpc h
  · rw [Function.update_of_ne heq] at h
    exact .inl h

/-- A step of a call that leaves the queue, or takes tasks from its head. -/
theorem InOrder.of_call (h : s.InOrder) {c : Nat} {pc : CallPc} {u : WatchWorker}
    (dropped : List Nat) (hpc : (s.calls c).hasPut = true → pc.hasPut = true)
    (hcalls : u.calls = (s.setCall c pc).calls) (hthreads : u.threads = s.threads)
    (hsub : u.submitted = s.submitted) (hran : u.ran = s.ran)
    (htasks : s.tasks = dropped ++ u.tasks) : u.InOrder :=
  h.of_taken dropped (fun d hd => by rw [hcalls]; exact hasPut_setCall hpc d hd) hsub hran htasks
    fun w f hf => .inl (by rwa [hthreads] at hf)

/-- A step of a thread that leaves the queue, or takes tasks from its head. -/
theorem InOrder.of_thread (h : s.InOrder) {w : Nat} {pc : RunPc} {u : WatchWorker}
    (dropped : List Nat) (hthreads : u.threads = (s.setThread w pc).threads)
    (hpc : ∀ f, pc.next = some f → (s.threads w).next = some f ∨ dropped = [f])
    (hcalls : u.calls = s.calls) (hsub : u.submitted = s.submitted) (hran : u.ran = s.ran)
    (htasks : s.tasks = dropped ++ u.tasks) : u.InOrder :=
  h.of_taken dropped (fun d hd => by rwa [hcalls]) hsub hran htasks
    fun v f hf => next_setThread (hpc f) (by rwa [hthreads] at hf)

theorem tasks_of_cons {x : Option Nat} {queue : List (Option Nat)} (h : s.queue = x :: queue) :
    s.tasks = x.toList ++ queue.filterMap id := by
  rw [tasks, h]
  cases x <;> rfl

theorem InOrder.put (h : s.InOrder) {c : Nat} (hpc : s.calls c = .submitLocked) :
    { s.setCall c .put with
      queue := s.queue ++ [some c]
      submitted := s.submitted ++ [c] }.InOrder := by
  have hnew : c ∉ s.submitted := fun hc => by simpa [hpc, CallPc.hasPut] using h.hasPut c hc
  obtain ⟨taken, hsplit, hsublist, hhand⟩ := h.taken
  refine ⟨?_, fun d hd => ?_, taken, ?_, hsublist, hhand⟩
  · rw [List.nodup_append]
    refine ⟨h.nodup, by simp, ?_⟩
    rintro d hd e he rfl
    exact hnew (List.mem_singleton.mp he ▸ hd)
  · obtain hold | hlast := List.mem_append.mp hd
    · exact hasPut_setCall (fun _ => rfl) d (h.hasPut d hold)
    · rw [List.mem_singleton.mp hlast]
      simp [setCall, CallPc.hasPut]
  · simp [tasks, hsplit]

theorem InOrder.callStep (h : s.InOrder) (c : Nat) : (s.callStep c).InOrder := by
  unfold WatchWorker.callStep
  cases hpc : s.calls c with
  | submitting | stopping | joining w =>
      simp only
      split
      · exact h.of_call [] (by simp [hpc, CallPc.hasPut]) rfl rfl rfl rfl rfl
      · exact h
  | submitLocked =>
      simp only
      split
      · exact h.of_call [] (by simp [CallPc.hasPut]) rfl rfl rfl rfl rfl
      · exact h.put hpc
  | put =>
      simp only
      split
      · exact h.of_call [] (by simp [CallPc.hasPut]) rfl rfl rfl rfl rfl
      · refine h.of_taken [] (hasPut_setCall fun _ => rfl) rfl rfl rfl fun v f hf => ?_
        exact @next_setThread s s.started v f .waiting _ nofun hf
  | draining thread =>
      simp only
      split
      · exact h.of_call [] (by simp [hpc, CallPc.hasPut]) rfl rfl rfl rfl rfl
      · rename_i hqueue
        exact h.of_taken [] (fun _ => id) rfl rfl (tasks_of_cons hqueue) fun _ _ => .inl
      · rename_i f queue hqueue
        exact h.of_call [f] (by simp [hpc, CallPc.hasPut]) rfl rfl rfl rfl (tasks_of_cons hqueue)
  | drained thread =>
      cases thread with
      | none => exact h.of_call [] (by simp [hpc, CallPc.hasPut]) rfl rfl rfl rfl rfl
      | some w =>
          refine h.of_call [] (by simp [hpc, CallPc.hasPut]) rfl rfl rfl rfl ?_
          simp [tasks]
  | unlocking => exact h.of_call [] (fun _ => rfl) rfl rfl rfl rfl rfl
  | stopLocked | flagged thread | cancelling thread f =>
      exact h.of_call [] (by simp [hpc, CallPc.hasPut]) rfl rfl rfl rfl rfl
  | idle | returned | stopped => exact h

/-- The thread that begins a task is the only one that could begin one. -/
theorem InOrder.begin (hall : assertions.All s) (h : s.InOrder) {w f : Nat}
    (hpc : s.threads w = .passed f) :
    { (s.setFuture f .running).setThread w (.running f) with ran := s.ran ++ [f] }.InOrder := by
  obtain ⟨taken, hsplit, hsublist, hhand⟩ := h.taken
  have hthread := thread_of_inLoop hall (w := w) (by rw [hpc]; rfl)
  refine ⟨h.nodup, h.hasPut, taken, hsplit, hhand w f (by rw [hpc]; rfl), fun v g hg => ?_⟩
  change (Function.update s.threads w (.running f) v).next = some g at hg
  by_cases heq : v = w
  · subst heq
    simp [RunPc.next] at hg
  · rw [Function.update_of_ne heq] at hg
    have hother := thread_of_inLoop hall (RunPc.inLoop_of_next hg)
    rw [hthread, Option.some_inj] at hother
    exact absurd hother.symm heq

theorem InOrder.threadStep (hall : assertions.All s) (h : s.InOrder) (w : Nat) :
    (s.threadStep w).InOrder := by
  unfold WatchWorker.threadStep
  cases hpc : s.threads w with
  | waiting =>
      simp only
      split
      · exact h
      · rename_i hqueue
        exact h.of_thread [] rfl nofun rfl rfl rfl (tasks_of_cons hqueue)
      · rename_i f queue hqueue
        refine h.of_thread [f] rfl (fun g hg => .inr ?_) rfl rfl rfl (tasks_of_cons hqueue)
        rw [Option.some_inj.mp hg]
  | idle | woken =>
      simp only
      split
      · exact h.of_thread [] rfl nofun rfl rfl rfl rfl
      · exact h
  | looking =>
      simp only
      split <;> exact h.of_thread [] rfl nofun rfl rfl rfl rfl
  | got f =>
      simp only
      split
      · exact h.of_thread [] rfl nofun rfl rfl rfl rfl
      · exact h.of_thread [] rfl (fun g hg => .inl (by rw [hpc]; exact hg)) rfl rfl rfl rfl
  | passed f =>
      simp only
      split
      · exact h.begin hall hpc
      · exact h.of_thread [] rfl nofun rfl rfl rfl rfl
  | resuming | leaving | wokenLocked | dropping f | running f =>
      exact h.of_thread [] rfl nofun rfl rfl rfl rfl
  | new | ended => exact h

theorem InOrder.keep (hall : assertions.All s) (h : s.InOrder) (act : WatchAction) :
    (step act s).InOrder := by
  cases act with
  | call c => exact h.callStep c
  | thread w => exact h.threadStep hall w
  | submit c | stop c =>
      rw [step]
      split
      · rename_i hpc
        exact h.of_call [] (by simp [hpc, CallPc.hasPut]) rfl rfl rfl rfl rfl
      · exact h
  | cancel f => exact h.of_taken [] (fun _ => id) rfl rfl rfl fun _ _ => .inl
  | giveUp c =>
      rw [step]
      split
      · exact h.of_call [] (fun _ => rfl) rfl rfl rfl rfl rfl
      · exact h
  | timeOut w =>
      rw [step]
      split
      · exact h.of_thread [] rfl (by simp [RunPc.next]) rfl rfl rfl rfl
      · exact h

theorem inOrder_after (acts : List WatchAction) :
    (run step acts ({} : WatchWorker)).InOrder := by
  refine all_new.invariant gives stable (fun act s hall h => h.keep hall act) ?_ acts
  exact ⟨List.nodup_nil, nofun, [], rfl, List.Sublist.refl [], nofun⟩

/-- Whatever is submitted, stopped and cancelled at the same time: the tasks
that have run are some of the submitted ones, in the order of their
submission, each of them once, and no two of them run at the same time. -/
theorem runs_in_order (acts : List WatchAction) :
    (run step acts ({} : WatchWorker)).ran.Sublist (run step acts ({} : WatchWorker)).submitted ∧
      (run step acts ({} : WatchWorker)).ran.Nodup ∧
      ∀ v w f g, (run step acts ({} : WatchWorker)).threads v = .running f →
        (run step acts ({} : WatchWorker)).threads w = .running g → v = w ∧ f = g := by
  have hall := all_after acts
  have horder := inOrder_after acts
  generalize run step acts ({} : WatchWorker) = s at hall horder
  obtain ⟨taken, hsplit, hsublist, -⟩ := horder.taken
  have hsub : s.ran.Sublist s.submitted := by
    rw [hsplit]
    exact hsublist.trans (List.sublist_append_left taken s.tasks)
  refine ⟨hsub, horder.nodup.sublist hsub, fun v w f g hv hw => ?_⟩
  have hloop := thread_of_inLoop hall (w := v) (by rw [hv]; rfl)
  have hloop' := thread_of_inLoop hall (w := w) (by rw [hw]; rfl)
  have hvw : v = w := Option.some_inj.mp (hloop.symm.trans hloop')
  subst hvw
  rw [hv] at hw
  exact ⟨rfl, RunPc.running.inj hw⟩

/-! ### Nothing is lost -/

/-- The future waits in the queue, or somebody has it in hand. -/
def HeldBy (s : WatchWorker) (f : Nat) : Prop :=
  some f ∈ s.queue ∨ (∃ w, (s.threads w).hand = some f) ∨ ∃ c, (s.calls c).hand = some f

structure Held (s : WatchWorker) : Prop where
  pending : ∀ f ∈ s.submitted, s.futures f = .pending → s.HeldBy f
  running : ∀ f, s.futures f = .running → ∃ w, s.threads w = .running f

theorem futures_cancel (s : WatchWorker) (f g : Nat) :
    (s.cancel f).futures g = s.futures g ∨ ((s.cancel f).futures g).isDone = true := by
  by_cases hg : g = f
  · subst hg
    cases hstate : s.futures g <;> simp [cancel, setFuture, hstate, FutureState.cancel,
      FutureState.isDone]
  · exact .inl (Function.update_of_ne hg ..)

theorem not_pending_cancel (s : WatchWorker) (f : Nat) : (s.cancel f).futures f ≠ .pending := by
  cases hstate : s.futures f <;> simp [cancel, setFuture, hstate, FutureState.cancel]

theorem HeldBy.of_call {c f : Nat} {pc : CallPc} {u : WatchWorker} (h : s.HeldBy f)
    (hcalls : u.calls = (s.setCall c pc).calls)
    (hthreads : ∀ w, (s.threads w).hand = some f → (u.threads w).hand = some f)
    (hqueue : some f ∈ s.queue → some f ∈ u.queue ∨ pc.hand = some f)
    (hhand : (s.calls c).hand = some f → pc.hand = some f) : u.HeldBy f := by
  have hself : pc.hand = some f → u.HeldBy f := fun hpc =>
    .inr (.inr ⟨c, by rw [hcalls]; simpa [setCall] using hpc⟩)
  obtain hmem | ⟨w, hw⟩ | ⟨d, hd⟩ := h
  · exact (hqueue hmem).elim .inl hself
  · exact .inr (.inl ⟨w, hthreads w hw⟩)
  · by_cases heq : d = c
    · subst heq
      exact hself (hhand hd)
    · refine .inr (.inr ⟨d, ?_⟩)
      rw [hcalls]
      exact (congrArg CallPc.hand (Function.update_of_ne heq ..)).trans hd

theorem HeldBy.of_thread {w f : Nat} {pc : RunPc} {u : WatchWorker} (h : s.HeldBy f)
    (hthreads : u.threads = (s.setThread w pc).threads) (hcalls : u.calls = s.calls)
    (hqueue : some f ∈ s.queue → some f ∈ u.queue ∨ pc.hand = some f)
    (hhand : (s.threads w).hand = some f → pc.hand = some f) : u.HeldBy f := by
  have hself : pc.hand = some f → u.HeldBy f := fun hpc =>
    .inr (.inl ⟨w, by rw [hthreads]; simpa [setThread] using hpc⟩)
  obtain hmem | ⟨v, hv⟩ | ⟨c, hc⟩ := h
  · exact (hqueue hmem).elim .inl hself
  · by_cases heq : v = w
    · subst heq
      exact hself (hhand hv)
    · refine .inr (.inl ⟨v, ?_⟩)
      rw [hthreads]
      exact (congrArg RunPc.hand (Function.update_of_ne heq ..)).trans hv
  · exact .inr (.inr ⟨c, by rwa [hcalls]⟩)

/-- A step of a call that begins no task and finishes none. -/
theorem Held.of_call (h : s.Held) {c : Nat} {pc : CallPc} {u : WatchWorker}
    (hcalls : u.calls = (s.setCall c pc).calls)
    (hthreads : ∀ w, s.threads w ≠ .new → u.threads w = s.threads w)
    (hsub : ∀ f ∈ u.submitted, f ∈ s.submitted ∨ some f ∈ u.queue)
    (hfutures : ∀ g, u.futures g = s.futures g ∨ (u.futures g).isDone = true)
    (hqueue : ∀ f, some f ∈ s.queue → some f ∈ u.queue ∨ pc.hand = some f)
    (hhand : ∀ f, (s.calls c).hand = some f → u.futures f = .pending → pc.hand = some f) :
    u.Held := by
  refine ⟨fun f hf hpending => ?_, fun f hrunning => ?_⟩
  · obtain hold | hnew := hsub f hf
    · have hsame : s.futures f = .pending := by
        obtain heq | hdone := hfutures f
        · rw [← heq, hpending]
        · simp [hpending, FutureState.isDone] at hdone
      refine (h.pending f hold hsame).of_call hcalls (fun w hw => ?_) (hqueue f)
        fun hc => hhand f hc hpending
      rw [hthreads w fun hnew => by simp [hnew, RunPc.hand] at hw, hw]
    · exact .inl hnew
  · have hsame : s.futures f = .running := by
      obtain heq | hdone := hfutures f
      · rw [← heq, hrunning]
      · simp [hrunning, FutureState.isDone] at hdone
    obtain ⟨w, hw⟩ := h.running f hsame
    exact ⟨w, by rw [hthreads w (by simp [hw]), hw]⟩

/-- A step of a thread that begins no task. -/
theorem Held.of_thread (h : s.Held) {w : Nat} {pc : RunPc} {u : WatchWorker}
    (hthreads : u.threads = (s.setThread w pc).threads) (hcalls : u.calls = s.calls)
    (hsub : u.submitted = s.submitted)
    (hfutures : ∀ g, u.futures g = s.futures g ∨ (u.futures g).isDone = true)
    (hqueue : ∀ f, some f ∈ s.queue → some f ∈ u.queue ∨ pc.hand = some f)
    (hhand : ∀ f, (s.threads w).hand = some f → u.futures f = .pending → pc.hand = some f)
    (hrun : ∀ f, s.threads w = .running f → u.futures f ≠ .running) : u.Held := by
  refine ⟨fun f hf hpending => ?_, fun f hrunning => ?_⟩
  · have hsame : s.futures f = .pending := by
      obtain heq | hdone := hfutures f
      · rw [← heq, hpending]
      · simp [hpending, FutureState.isDone] at hdone
    exact (h.pending f (hsub ▸ hf) hsame).of_thread hthreads hcalls (hqueue f)
      fun hw => hhand f hw hpending
  · have hsame : s.futures f = .running := by
      obtain heq | hdone := hfutures f
      · rw [← heq, hrunning]
      · simp [hrunning, FutureState.isDone] at hdone
    obtain ⟨v, hv⟩ := h.running f hsame
    have hne : v ≠ w := fun heq => hrun f (heq ▸ hv) hrunning
    exact ⟨v, by rw [hthreads]; exact (Function.update_of_ne hne ..).trans hv⟩

theorem Held.callStep (hall : assertions.All s) (h : s.Held) (c : Nat) : (s.callStep c).Held := by
  unfold WatchWorker.callStep
  cases hpc : s.calls c with
  | submitting | stopping | joining w =>
      simp only
      split
      · exact h.of_call rfl (fun _ _ => rfl) (fun _ => .inl) (fun _ => .inl rfl) (fun _ => .inl)
          (by simp [hpc, CallPc.hand])
      · exact h
  | submitLocked =>
      simp only
      split
      · exact h.of_call rfl (fun _ _ => rfl) (fun _ => .inl) (futures_cancel s c) (fun _ => .inl)
          (by simp [hpc, CallPc.hand])
      · refine h.of_call rfl (fun _ _ => rfl) (fun f hf => ?_) (fun _ => .inl rfl)
          (fun f hf => .inl (List.mem_append_left _ hf)) (by simp [hpc, CallPc.hand])
        refine (List.mem_append.mp hf).imp_right fun hlast => ?_
        rw [List.mem_singleton.mp hlast]
        exact List.mem_append_right _ List.mem_cons_self
  | put =>
      simp only
      split
      · exact h.of_call rfl (fun _ _ => rfl) (fun _ => .inl) (fun _ => .inl rfl) (fun _ => .inl)
          (by simp [hpc, CallPc.hand])
      · refine h.of_call rfl (fun w hw => ?_) (fun _ => .inl) (fun _ => .inl rfl) (fun _ => .inl)
          (by simp [hpc, CallPc.hand])
        have hshared : s.Shared := hall.1
        have hne : w ≠ s.started := fun heq => hw (hshared.unborn w (by omega))
        exact Function.update_of_ne hne ..
  | draining thread =>
      simp only
      split
      · exact h.of_call rfl (fun _ _ => rfl) (fun _ => .inl) (fun _ => .inl rfl) (fun _ => .inl)
          (by simp [hpc, CallPc.hand])
      · rename_i queue hqueue
        refine @Held.of_call s h c (.draining thread) _ ?_ (fun _ _ => rfl) (fun _ => .inl)
          (fun _ => .inl rfl) (fun f hf => .inl ?_) (by simp [hpc, CallPc.hand])
        · exact (Function.update_eq_self_iff.mpr hpc.symm).symm
        · simpa [hqueue] using hf
      · rename_i g queue hqueue
        refine h.of_call rfl (fun _ _ => rfl) (fun _ => .inl) (fun _ => .inl rfl) (fun f hf => ?_)
          (by simp [hpc, CallPc.hand])
        rw [hqueue, List.mem_cons] at hf
        exact hf.symm.imp_right Eq.symm
  | cancelling thread g =>
      refine h.of_call rfl (fun _ _ => rfl) (fun _ => .inl) (futures_cancel s g) (fun _ => .inl)
        fun f hf hpending => ?_
      rw [hpc] at hf
      rw [← Option.some_inj.mp hf] at hpending
      exact absurd hpending (not_pending_cancel s g)
  | drained thread =>
      cases thread with
      | none =>
          exact h.of_call rfl (fun _ _ => rfl) (fun _ => .inl) (fun _ => .inl rfl) (fun _ => .inl)
            (by simp [hpc, CallPc.hand])
      | some w =>
          exact h.of_call rfl (fun _ _ => rfl) (fun _ => .inl) (fun _ => .inl rfl)
            (fun f hf => .inl (List.mem_append_left _ hf)) (by simp [hpc, CallPc.hand])
  | unlocking | stopLocked | flagged thread =>
      exact h.of_call rfl (fun _ _ => rfl) (fun _ => .inl) (fun _ => .inl rfl) (fun _ => .inl)
        (by simp [hpc, CallPc.hand])
  | idle | returned | stopped => exact h

theorem Held.begin (h : s.Held) {w f : Nat} (hpc : s.threads w = .passed f)
    (hpending : s.futures f = .pending) :
    { (s.setFuture f .running).setThread w (.running f) with ran := s.ran ++ [f] }.Held := by
  refine ⟨fun g hg hstate => ?_, fun g hstate => ?_⟩
  · change Function.update s.futures f .running g = .pending at hstate
    have hne : g ≠ f := by
      rintro rfl
      simp at hstate
    rw [Function.update_of_ne hne] at hstate
    refine (h.pending g hg hstate).of_thread rfl rfl .inl fun hw => ?_
    rw [hpc] at hw
    exact absurd (Option.some_inj.mp hw).symm hne
  · change Function.update s.futures f .running g = .running at hstate
    by_cases heq : g = f
    · exact ⟨w, by simp [setThread, heq]⟩
    · rw [Function.update_of_ne heq] at hstate
      obtain ⟨v, hv⟩ := h.running g hstate
      have hne : v ≠ w := by
        rintro rfl
        simp [hpc] at hv
      exact ⟨v, (Function.update_of_ne hne ..).trans hv⟩

theorem Held.threadStep (h : s.Held) (w : Nat) : (s.threadStep w).Held := by
  unfold WatchWorker.threadStep
  cases hpc : s.threads w with
  | waiting =>
      simp only
      split
      · exact h
      · rename_i queue hqueue
        refine h.of_thread rfl rfl rfl (fun _ => .inl rfl) (fun f hf => .inl ?_)
          (by simp [hpc, RunPc.hand]) (by simp [hpc])
        simpa [hqueue] using hf
      · rename_i g queue hqueue
        refine h.of_thread rfl rfl rfl (fun _ => .inl rfl) (fun f hf => ?_)
          (by simp [hpc, RunPc.hand]) (by simp [hpc])
        rw [hqueue, List.mem_cons] at hf
        exact hf.symm.imp_right Eq.symm
  | idle | woken =>
      simp only
      split
      · exact h.of_thread rfl rfl rfl (fun _ => .inl rfl) (fun _ => .inl)
          (by simp [hpc, RunPc.hand]) (by simp [hpc])
      · exact h
  | looking =>
      simp only
      split <;> exact h.of_thread rfl rfl rfl (fun _ => .inl rfl) (fun _ => .inl)
        (by simp [hpc, RunPc.hand]) (by simp [hpc])
  | got f =>
      simp only
      split <;> exact h.of_thread rfl rfl rfl (fun _ => .inl rfl) (fun _ => .inl)
        (fun g hg _ => by rw [hpc] at hg; exact hg) (by simp [hpc])
  | passed f =>
      simp only
      split
      · rename_i hpending
        exact h.begin hpc hpending
      · refine h.of_thread rfl rfl rfl (futures_cancel s f) (fun _ => .inl) (fun g hg hpending => ?_)
          (by simp [hpc])
        rw [hpc] at hg
        rw [← Option.some_inj.mp hg] at hpending
        exact absurd hpending (not_pending_cancel s f)
  | dropping f =>
      refine h.of_thread rfl rfl rfl (futures_cancel s f) (fun _ => .inl) (fun g hg hpending => ?_)
        (by simp [hpc])
      rw [hpc] at hg
      rw [← Option.some_inj.mp hg] at hpending
      exact absurd hpending (not_pending_cancel s f)
  | running f =>
      refine h.of_thread rfl rfl rfl (fun g => ?_) (fun _ => .inl) (by simp [hpc, RunPc.hand])
        fun g hg => ?_
      · by_cases heq : g = f
        · exact .inr (by simp [setThread, setFuture, heq, FutureState.isDone])
        · exact .inl (Function.update_of_ne heq ..)
      · rw [hpc] at hg
        rw [← RunPc.running.inj hg]
        simp [setThread, setFuture]
  | resuming | leaving | wokenLocked =>
      exact h.of_thread rfl rfl rfl (fun _ => .inl rfl) (fun _ => .inl)
        (by simp [hpc, RunPc.hand]) (by simp [hpc])
  | new | ended => exact h

theorem Held.keep (hall : assertions.All s) (h : s.Held) (act : WatchAction) :
    (step act s).Held := by
  cases act with
  | call c => exact h.callStep hall c
  | thread w => exact h.threadStep w
  | submit c | stop c =>
      rw [step]
      split
      · rename_i hpc
        exact h.of_call rfl (fun _ _ => rfl) (fun _ => .inl) (fun _ => .inl rfl) (fun _ => .inl)
          (by simp [hpc, CallPc.hand])
      · exact h
  | cancel f =>
      refine ⟨fun g hg hpending => ?_, fun g hrunning => ?_⟩
      · obtain hsame | hdone := futures_cancel s f g
        · exact h.pending g hg (hsame ▸ hpending)
        · rw [step] at hpending
          simp [hpending, FutureState.isDone] at hdone
      · obtain hsame | hdone := futures_cancel s f g
        · exact h.running g (hsame ▸ hrunning)
        · rw [step] at hrunning
          simp [hrunning, FutureState.isDone] at hdone
  | giveUp c =>
      rw [step]
      split
      · rename_i hpc
        exact h.of_call rfl (fun _ _ => rfl) (fun _ => .inl) (fun _ => .inl rfl) (fun _ => .inl)
          (by simp [hpc, CallPc.hand])
      · exact h
  | timeOut w =>
      rw [step]
      split
      · rename_i hpc
        exact h.of_thread rfl rfl rfl (fun _ => .inl rfl) (fun _ => .inl)
          (by simp [hpc, RunPc.hand]) (by simp [hpc])
      · exact h

theorem held_after (acts : List WatchAction) : (run step acts ({} : WatchWorker)).Held :=
  all_new.invariant gives stable (fun act _ hall h => h.keep hall act) ⟨nofun, nofun⟩ acts

end WatchWorker

end MarkSdk
