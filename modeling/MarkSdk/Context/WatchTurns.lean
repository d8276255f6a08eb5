import MarkSdk.Context.WatchWorker
import MarkSdk.Lib.Parties

/-!
What each call and each thread of a watch worker may rely on.

There is at most one thread in the loop, and it is the one that the worker
knows. A task in the queue always has that thread to run it, unless the call
that has put it there is still on its way to start one. A wake-up is only
put behind the last task.
-/

namespace MarkSdk

open Lib

namespace WatchWorker

variable {s t : WatchWorker}

def HasTask (s : WatchWorker) : Prop := ∃ f, some f ∈ s.queue

def Drained (s : WatchWorker) : Prop := s.stopped = true ∧ ¬ s.HasTask

/-- What a call has before its next step. -/
def CallOk (s : WatchWorker) (c : Nat) : Prop :=
  match s.calls c with
  | .submitLocked | .unlocking | .stopLocked =>
      s.lock = some (.call c) ∧ (s.HasTask → s.thread ≠ none)
  | .put => s.lock = some (.call c) ∧ s.stopped = false
  | .flagged thread =>
      s.lock = some (.call c) ∧ (s.HasTask → s.thread ≠ none) ∧ s.stopped = true ∧
        s.thread = thread
  | .draining thread | .cancelling thread _ =>
      s.stopped = true ∧ (s.thread = thread ∨ s.thread = none)
  | .drained thread => s.Drained ∧ (s.thread = thread ∨ s.thread = none)
  | .joining w => s.Drained ∧ (s.thread = some w ∨ s.thread = none)
  | .stopped => s.Drained ∧ s.thread = none
  | .idle | .submitting | .stopping | .returned => True

/-- What a thread has before its next step. -/
def ThreadOk (s : WatchWorker) (w : Nat) : Prop :=
  match s.threads w with
  | .new | .ended => s.thread ≠ some w
  | .leaving => s.thread ≠ some w ∧ s.lock = some (.thread w)
  | .looking | .resuming => s.thread = some w ∧ s.lock = some (.thread w)
  | .woken => s.thread = some w ∧ s.Drained
  | .wokenLocked => s.thread = some w ∧ s.Drained ∧ s.lock = some (.thread w)
  | .waiting | .idle | .got _ | .passed _ | .dropping _ | .running _ => s.thread = some w

/-- What the whole worker has between two steps. -/
structure Shared (s : WatchWorker) : Prop where
  wakeUp : none ∈ s.queue → s.Drained
  tasks : (∀ c, s.lock ≠ some (.call c)) → s.HasTask → s.thread ≠ none
  unborn : ∀ w, s.started ≤ w → s.threads w = .new

def assertions : Assertions WatchWorker WatchParty where
  inv := Shared
  ok
    | .call c, s => s.CallOk c
    | .thread w, s => s.ThreadOk w

/-- What a party leaves to the others. -/
structure Guarantee (p : WatchParty) (s t : WatchWorker) : Prop where
  calls : ∀ c, p ≠ .call c → t.calls c = s.calls c
  threads : ∀ w, p ≠ .thread w →
    t.threads w = s.threads w ∨ t.threads w = .waiting ∧ t.thread = some w
  lock : ∀ q, q ≠ p → s.lock = some q → t.lock = some q
  stopped : s.stopped = true → t.stopped = true
  /-- without the lock nothing changes that is read under it -/
  quiet : s.lock ≠ some p →
    t.stopped = s.stopped ∧ t.thread = s.thread ∧ (t.HasTask → s.HasTask)
  kept : ∀ w, p ≠ .thread w → s.thread = some w → t.thread = some w
  fresh : ∀ w, p ≠ .thread w → t.thread = some w → s.thread = some w ∨ t.threads w = .waiting
  shut : s.stopped = true → t.thread = s.thread ∨ t.thread = none
  drained : s.Drained → t.Drained

theorem Guarantee.or_none {p : WatchParty} (h : Guarantee p s t) (hstop : s.stopped = true)
    {thread : Option Nat} (hs : s.thread = thread ∨ s.thread = none) :
    t.thread = thread ∨ t.thread = none := by
  obtain hsame | hnone := h.shut hstop
  · rwa [hsame]
  · exact .inr hnone

theorem CallOk.stable {p : WatchParty} {c : Nat} (h : Guarantee p s t) (hp : p ≠ .call c)
    (hok : s.CallOk c) : t.CallOk c := by
  rw [CallOk, h.calls c hp]
  rw [CallOk] at hok
  have hlock : s.lock = some (.call c) → t.lock = some (.call c) := h.lock _ hp.symm
  have hquiet : s.lock = some (.call c) →
      t.stopped = s.stopped ∧ t.thread = s.thread ∧ (t.HasTask → s.HasTask) := by
    intro hown
    refine h.quiet ?_
    rw [hown]
    exact fun heq => hp (Option.some_inj.mp heq).symm
  cases hpc : s.calls c with
  | submitLocked | unlocking | stopLocked =>
      simp only [hpc] at hok ⊢
      obtain ⟨hown, htask⟩ := hok
      obtain ⟨-, hthread, hback⟩ := hquiet hown
      exact ⟨hlock hown, fun ht => hthread ▸ htask (hback ht)⟩
  | put =>
      simp only [hpc] at hok ⊢
      exact ⟨hlock hok.1, (hquiet hok.1).1.trans hok.2⟩
  | flagged thread =>
      simp only [hpc] at hok ⊢
      obtain ⟨hown, htask, hstop, hread⟩ := hok
      obtain ⟨-, hthread, hback⟩ := hquiet hown
      exact ⟨hlock hown, fun ht => hthread ▸ htask (hback ht), h.stopped hstop,
        hthread.trans hread⟩
  | draining thread | cancelling thread f =>
      simp only [hpc] at hok ⊢
      exact ⟨h.stopped hok.1, h.or_none hok.1 hok.2⟩
  | drained thread | joining w =>
      simp only [hpc] at hok ⊢
      exact ⟨h.drained hok.1, h.or_none hok.1.1 hok.2⟩
  | stopped =>
      simp only [hpc] at hok ⊢
      exact ⟨h.drained hok.1, (h.or_none hok.1.1 (.inr hok.2)).elim id id⟩
  | idle | submitting | stopping | returned => trivial

theorem ThreadOk.stable {p : WatchParty} {w : Nat} (h : Guarantee p s t) (hp : p ≠ .thread w)
    (hok : s.ThreadOk w) : t.ThreadOk w := by
  obtain hsame | ⟨hborn, hthread⟩ := h.threads w hp
  · have hnot : s.thread ≠ some w → t.threads w ≠ .waiting → t.thread ≠ some w := by
      intro hs ht heq
      obtain hold | hnew := h.fresh w hp heq
      · exact hs hold
      · exact ht hnew
    have hkept : s.thread = some w → t.thread = some w := h.kept w hp
    have hlock : s.lock = some (.thread w) → t.lock = some (.thread w) := h.lock _ hp.symm
    rw [ThreadOk] at hok
    rw [ThreadOk]
    cases hpc : s.threads w with
    | new | ended =>
        rw [hpc] at hsame
        simp only [hpc, hsame] at hok ⊢
        exact hnot hok (by simp [hsame])
    | leaving =>
        rw [hpc] at hsame
        simp only [hpc, hsame] at hok ⊢
        exact ⟨hnot hok.1 (by simp [hsame]), hlock hok.2⟩
    | looking | resuming =>
        rw [hpc] at hsame
        simp only [hpc, hsame] at hok ⊢
        exact ⟨hkept hok.1, hlock hok.2⟩
    | woken =>
        rw [hpc] at hsame
        simp only [hpc, hsame] at hok ⊢
        exact ⟨hkept hok.1, h.drained hok.2⟩
    | wokenLocked =>
        rw [hpc] at hsame
        simp only [hpc, hsame] at hok ⊢
        exact ⟨hkept hok.1, h.drained hok.2.1, hlock hok.2.2⟩
    | _ =>
        rw [hpc] at hsame
        simp only [hpc, hsame] at hok ⊢
        exact hkept hok
  · rw [ThreadOk, hborn]
    exact hthread

theorem stable : assertions.Stable Guarantee := by
  intro p q s t hall hq h
  cases q with
  | call c => exact CallOk.stable h hq.symm (hall.2 (.call c))
  | thread w => exact ThreadOk.stable h hq.symm (hall.2 (.thread w))

/-! ### Steps that change neither the flag nor the thread -/

theorem Guarantee.of {p : WatchParty} (hcalls : ∀ c, p ≠ .call c → t.calls c = s.calls c)
    (hthreads : ∀ w, p ≠ .thread w → t.threads w = s.threads w)
    (hlock : ∀ q, q ≠ p → s.lock = some q → t.lock = some q) (hstop : t.stopped = s.stopped)
    (hthread : t.thread = s.thread) (htask : t.HasTask → s.HasTask) : Guarantee p s t where
  calls := hcalls
  threads w hw := .inl (hthreads w hw)
  lock := hlock
  stopped h := hstop.trans h
  quiet _ := ⟨hstop, hthread, htask⟩
  kept _ _ h := hthread.trans h
  fresh _ _ h := .inl (hthread.symm.trans h)
  shut _ := .inl hthread
  drained h := ⟨hstop.trans h.1, fun ht => h.2 (htask ht)⟩

theorem setCall_calls_of_ne {c d : Nat} {pc : CallPc} (h : WatchParty.call c ≠ .call d) :
    (s.setCall c pc).calls d = s.calls d :=
  Function.update_of_ne (fun heq => h (congrArg _ heq.symm)) ..

theorem setThread_threads_of_ne {v w : Nat} {pc : RunPc}
    (h : WatchParty.thread v ≠ .thread w) : (s.setThread v pc).threads w = s.threads w :=
  Function.update_of_ne (fun heq => h (congrArg _ heq.symm)) ..

/-- A step of a call that only takes a value out of the queue, or nothing at all. -/
theorem Guarantee.setCall {c : Nat} {pc : CallPc} {u : WatchWorker}
    (hcalls : u.calls = (s.setCall c pc).calls) (hthreads : u.threads = s.threads)
    (hlock : ∀ q, q ≠ .call c → s.lock = some q → u.lock = some q)
    (hstop : u.stopped = s.stopped) (hthread : u.thread = s.thread)
    (htask : u.HasTask → s.HasTask) : Guarantee (.call c) s u :=
  .of (fun d hd => by rw [hcalls, setCall_calls_of_ne hd]) (fun w _ => by rw [hthreads]) hlock hstop
    hthread htask

theorem Guarantee.setThread {w : Nat} {pc : RunPc} {u : WatchWorker}
    (hthreads : u.threads = (s.setThread w pc).threads) (hcalls : u.calls = s.calls)
    (hlock : ∀ q, q ≠ .thread w → s.lock = some q → u.lock = some q)
    (hstop : u.stopped = s.stopped) (hthread : u.thread = s.thread)
    (htask : u.HasTask → s.HasTask) : Guarantee (.thread w) s u :=
  .of (fun d _ => by rw [hcalls]) (fun v hv => by rw [hthreads, setThread_threads_of_ne hv]) hlock
    hstop hthread htask

theorem taken {p q : WatchParty} (hfree : s.lock = none) (h : s.lock = some q) :
    some p = some q := by
  rw [hfree] at h
  cases h

theorem given {p q : WatchParty} (hown : s.lock = some p) (hq : q ≠ p) (h : s.lock = some q) :
    none = some q := by
  rw [hown, Option.some_inj] at h
  exact absurd h.symm hq

/-! ### Calls -/

/-- The thread that the worker knows is one of the loop. -/
theorem alive_of_thread (h : assertions.All s) {w : Nat} (hw : s.thread = some w) :
    s.alive = true := by
  have hok : s.ThreadOk w := h.2 (.thread w)
  rw [ThreadOk] at hok
  simp only [alive, hw, decide_eq_true_eq]
  constructor <;> intro hpc <;> simp only [hpc] at hok <;> exact hok hw

theorem guarantee_call (h : assertions.All s) (c : Nat) :
    Guarantee (.call c) s (s.callStep c) := by
  have hok : s.CallOk c := h.2 (.call c)
  rw [CallOk] at hok
  unfold callStep
  cases hpc : s.calls c with
  | submitting | stopping =>
      simp only
      split
      · rename_i hfree
        exact .setCall rfl rfl (fun q _ => taken hfree) rfl rfl id
      · exact .of (fun _ _ => rfl) (fun _ _ => rfl) (fun _ _ => id) rfl rfl id
  | submitLocked =>
      simp only [hpc] at hok ⊢
      split
      · exact .setCall rfl rfl (fun _ _ => id) rfl rfl id
      · rename_i hrunning
        exact {
          calls := fun d hd => setCall_calls_of_ne hd
          threads := fun w _ => .inl rfl
          lock := fun _ _ => id
          stopped := id
          quiet := fun hnot => absurd hok.1 hnot
          kept := fun _ _ => id
          fresh := fun _ _ => .inl
          shut := fun _ => .inl rfl
          drained := fun hdrained => absurd hdrained.1 hrunning }
  | put =>
      simp only [hpc] at hok ⊢
      split
      · exact .setCall rfl rfl (fun _ _ => id) rfl rfl id
      · rename_i hdead
        have hnone : ∀ w, s.thread ≠ some w := fun w hw => hdead (alive_of_thread h hw)
        exact {
          calls := fun d hd => setCall_calls_of_ne hd
          threads := by
            intro w _
            by_cases hw : w = s.started
            · subst hw
              exact .inr ⟨Function.update_self .., rfl⟩
            · exact .inl (Function.update_of_ne hw ..)
          lock := fun _ _ => id
          stopped := id
          quiet := fun hnot => absurd hok.1 hnot
          kept := fun w _ hw => absurd hw (hnone w)
          fresh := by
            intro w _ hw
            obtain rfl := Option.some_inj.mp hw
            exact .inr (Function.update_self ..)
          shut := fun hstop => by simp [hok.2] at hstop
          drained := id }
  | unlocking | flagged thread =>
      simp only [hpc] at hok ⊢
      exact .setCall rfl rfl (fun q hq => given hok.1 hq) rfl rfl id
  | stopLocked =>
      simp only [hpc] at hok ⊢
      exact {
        calls := fun d hd => setCall_calls_of_ne hd
        threads := fun w _ => .inl rfl
        lock := fun _ _ => id
        stopped := fun _ => rfl
        quiet := fun hnot => absurd hok.1 hnot
        kept := fun _ _ => id
        fresh := fun _ _ => .inl
        shut := fun _ => .inl rfl
        drained := fun hdrained => ⟨rfl, hdrained.2⟩ }
  | draining thread =>
      simp only
      split
      · exact .setCall rfl rfl (fun _ _ => id) rfl rfl id
      · rename_i queue hqueue
        refine .of (fun _ _ => rfl) (fun _ _ => rfl) (fun _ _ => id) rfl rfl ?_
        exact fun ⟨f, hf⟩ => ⟨f, hqueue ▸ List.mem_cons_of_mem none hf⟩
      · rename_i f queue hqueue
        refine .setCall rfl rfl (fun _ _ => id) rfl rfl ?_
        exact fun ⟨f', hf⟩ => ⟨f', hqueue ▸ List.mem_cons_of_mem (some f) hf⟩
  | cancelling thread f => exact .setCall rfl rfl (fun _ _ => id) rfl rfl id
  | drained thread =>
      cases thread with
      | none => exact .setCall rfl rfl (fun _ _ => id) rfl rfl id
      | some w =>
          refine .setCall rfl rfl (fun _ _ => id) rfl rfl ?_
          rintro ⟨f, hf⟩
          exact ⟨f, by simpa using hf⟩
  | joining w =>
      simp only
      split
      · exact .setCall rfl rfl (fun _ _ => id) rfl rfl id
      · exact .of (fun _ _ => rfl) (fun _ _ => rfl) (fun _ _ => id) rfl rfl id
  | idle | returned | stopped =>
      exact .of (fun _ _ => rfl) (fun _ _ => rfl) (fun _ _ => id) rfl rfl id

theorem thread_ne_none_of_alive (h : s.alive = true) : s.thread ≠ none := by
  intro hnone
  simp [alive, hnone] at h

theorem callOk_call (h : assertions.All s) (c : Nat) : (s.callStep c).CallOk c := by
  have hshared : s.Shared := h.1
  have hok : s.CallOk c := h.2 (.call c)
  have hkeep := hok
  rw [CallOk] at hok
  unfold callStep
  cases hpc : s.calls c with
  | submitting | stopping =>
      simp only
      split
      · rename_i hfree
        simpa [CallOk, setCall, HasTask] using hshared.tasks (by simp [hfree])
      · exact hkeep
  | submitLocked =>
      simp only [hpc] at hok ⊢
      split
      · simpa [CallOk, setCall, cancel, setFuture, HasTask] using hok
      · rename_i hrunning
        simpa [CallOk, setCall] using And.intro hok.1 hrunning
  | put =>
      simp only [hpc] at hok ⊢
      split
      · rename_i halive
        simpa [CallOk, setCall] using And.intro hok.1 fun _ => thread_ne_none_of_alive halive
      · simpa [CallOk, setCall, setThread] using hok.1
  | stopLocked =>
      simp only [hpc] at hok ⊢
      simpa [CallOk, setCall, HasTask] using hok
  | flagged thread =>
      simp only [hpc] at hok ⊢
      simp [CallOk, setCall, hok.2.2]
  | draining thread =>
      simp only [hpc] at hok ⊢
      split
      · rename_i hqueue
        simpa [CallOk, setCall, Drained, HasTask, hqueue] using hok
      · simpa [CallOk, hpc] using hok
      · simpa [CallOk, setCall] using hok
  | cancelling thread f =>
      simp only [hpc] at hok ⊢
      simpa [CallOk, setCall, cancel, setFuture] using hok
  | drained thread =>
      simp only [hpc] at hok ⊢
      cases thread with
      | none => simpa [CallOk, setCall, Drained, HasTask] using hok
      | some w => simpa [CallOk, setCall, Drained, HasTask] using hok
  | joining w =>
      simp only [hpc] at hok ⊢
      split
      · rename_i hended
        have hgone : s.ThreadOk w := h.2 (.thread w)
        rw [ThreadOk] at hgone
        simp only [hended] at hgone
        simpa [CallOk, setCall, Drained, HasTask] using And.intro hok.1 (hok.2.resolve_left hgone)
      · exact hkeep
  | unlocking => simp [CallOk, setCall]
  | idle | returned | stopped => exact hkeep

/-- What puts nothing into the queue and touches neither the flag, the thread nor the lock. -/
theorem Shared.of_sub (h : s.Shared) (hqueue : ∀ x ∈ t.queue, x ∈ s.queue)
    (hstop : t.stopped = s.stopped) (hthread : t.thread = s.thread) (hlock : t.lock = s.lock)
    (hunborn : ∀ w, t.started ≤ w → t.threads w = .new) : t.Shared where
  wakeUp hmem := by
    have hd := h.wakeUp (hqueue none hmem)
    exact ⟨hstop.trans hd.1, fun ⟨f, hf⟩ => hd.2 ⟨f, hqueue _ hf⟩⟩
  tasks hfree := by
    rintro ⟨f, hf⟩
    rw [hthread]
    exact h.tasks (hlock ▸ hfree) ⟨f, hqueue _ hf⟩
  unborn := hunborn

theorem shared_call (h : assertions.All s) (c : Nat) : (s.callStep c).Shared := by
  have hshared : s.Shared := h.1
  have hok : s.CallOk c := h.2 (.call c)
  rw [CallOk] at hok
  unfold callStep
  cases hpc : s.calls c with
  | submitting | stopping =>
      simp only
      split
      · exact ⟨hshared.wakeUp, fun hnot => absurd rfl (hnot c), hshared.unborn⟩
      · exact hshared
  | submitLocked =>
      simp only [hpc] at hok ⊢
      split
      · exact hshared.of_sub (fun _ => id) rfl rfl rfl hshared.unborn
      · rename_i hrunning
        refine ⟨fun hmem => absurd (hshared.wakeUp ?_).1 hrunning, fun hnot => absurd hok.1 (hnot c),
          hshared.unborn⟩
        simpa using hmem
  | put =>
      simp only [hpc] at hok ⊢
      split
      · exact hshared.of_sub (fun _ => id) rfl rfl rfl hshared.unborn
      · refine ⟨hshared.wakeUp, fun _ _ => nofun, fun w hw => ?_⟩
        have hlt : s.started + 1 ≤ w := hw
        have hne : w ≠ s.started := by omega
        exact (Function.update_of_ne hne ..).trans (hshared.unborn w (by omega))
  | unlocking =>
      simp only [hpc] at hok ⊢
      exact ⟨hshared.wakeUp, fun _ => hok.2, hshared.unborn⟩
  | stopLocked =>
      simp only [hpc] at hok ⊢
      exact ⟨fun hmem => ⟨rfl, (hshared.wakeUp hmem).2⟩, fun hnot => absurd hok.1 (hnot c),
        hshared.unborn⟩
  | flagged thread =>
      simp only [hpc] at hok ⊢
      exact ⟨hshared.wakeUp, fun _ => hok.2.1, hshared.unborn⟩
  | draining thread =>
      simp only
      split
      · exact hshared.of_sub (fun _ => id) rfl rfl rfl hshared.unborn
      all_goals
        rename_i hqueue
        exact hshared.of_sub (fun x hx => hqueue ▸ List.mem_cons_of_mem _ hx) rfl rfl rfl
          hshared.unborn
  | cancelling thread f => exact hshared.of_sub (fun _ => id) rfl rfl rfl hshared.unborn
  | drained thread =>
      simp only [hpc] at hok ⊢
      cases thread with
      | none => exact hshared.of_sub (fun _ => id) rfl rfl rfl hshared.unborn
      | some w =>
          have hd : { s.setCall c (.joining w) with queue := s.queue ++ [none] }.Drained := by
            simpa [setCall, Drained, HasTask] using hok.1
          exact ⟨fun _ => hd, fun _ ht => absurd ht hd.2, hshared.unborn⟩
  | joining w =>
      simp only
      split
      · exact hshared.of_sub (fun _ => id) rfl rfl rfl hshared.unborn
      · exact hshared
  | idle | returned | stopped => exact hshared

/-! ### Threads -/

/-- The thread that the worker knows says that there is none any more. -/
theorem guarantee_quit {w : Nat} (hown : s.lock = some (.thread w)) (hthread : s.thread = some w) :
    Guarantee (.thread w) s { s.setThread w .leaving with thread := none } where
  calls _ _ := rfl
  threads v hv := .inl (setThread_threads_of_ne hv)
  lock _ _ := id
  stopped := id
  quiet hnot := absurd hown hnot
  kept v hv hold := by
    rw [hthread, Option.some_inj] at hold
    exact absurd (congrArg _ hold) hv
  fresh _ _ hnew := by cases hnew
  shut _ := .inr rfl
  drained := id

theorem guarantee_thread (h : assertions.All s) (w : Nat) :
    Guarantee (.thread w) s (s.threadStep w) := by
  have hok : s.ThreadOk w := h.2 (.thread w)
  rw [ThreadOk] at hok
  unfold threadStep
  cases hpc : s.threads w with
  | waiting =>
      simp only
      split
      · exact .of (fun _ _ => rfl) (fun _ _ => rfl) (fun _ _ => id) rfl rfl id
      all_goals
        rename_i hqueue
        refine .setThread rfl rfl (fun _ _ => id) rfl rfl ?_
        exact fun ⟨f, hf⟩ => ⟨f, hqueue ▸ List.mem_cons_of_mem _ hf⟩
  | idle | woken =>
      simp only
      split
      · rename_i hfree
        exact .setThread rfl rfl (fun q _ => taken hfree) rfl rfl id
      · exact .of (fun _ _ => rfl) (fun _ _ => rfl) (fun _ _ => id) rfl rfl id
  | looking =>
      simp only [hpc] at hok ⊢
      split
      · exact guarantee_quit hok.2 hok.1
      · exact .setThread rfl rfl (fun _ _ => id) rfl rfl id
  | wokenLocked =>
      simp only [hpc] at hok ⊢
      exact guarantee_quit hok.2.2 hok.1
  | resuming | leaving =>
      simp only [hpc] at hok ⊢
      exact .setThread rfl rfl (fun q hq => given hok.2 hq) rfl rfl id
  | got f | passed f =>
      simp only
      split <;> exact .setThread rfl rfl (fun _ _ => id) rfl rfl id
  | dropping f | running f => exact .setThread rfl rfl (fun _ _ => id) rfl rfl id
  | new | ended => exact .of (fun _ _ => rfl) (fun _ _ => rfl) (fun _ _ => id) rfl rfl id

theorem threadOk_thread (h : assertions.All s) (w : Nat) : (s.threadStep w).ThreadOk w := by
  have hshared : s.Shared := h.1
  have hok : s.ThreadOk w := h.2 (.thread w)
  have hkeep := hok
  rw [ThreadOk] at hok
  unfold threadStep
  cases hpc : s.threads w with
  | waiting =>
      simp only [hpc] at hok ⊢
      split
      · exact hkeep
      · rename_i queue hqueue
        have hd := hshared.wakeUp (by simp [hqueue])
        rw [Drained, HasTask, hqueue] at hd
        simpa [ThreadOk, setThread, Drained, HasTask] using And.intro hok hd
      · simpa [ThreadOk, setThread] using hok
  | idle =>
      simp only [hpc] at hok ⊢
      split
      · simpa [ThreadOk, setThread] using hok
      · exact hkeep
  | woken =>
      simp only [hpc] at hok ⊢
      split
      · simpa [ThreadOk, setThread, Drained, HasTask] using hok
      · exact hkeep
  | looking =>
      simp only [hpc] at hok ⊢
      split
      · simpa [ThreadOk, setThread] using hok.2
      · simpa [ThreadOk, setThread] using hok
  | wokenLocked =>
      simp only [hpc] at hok ⊢
      simpa [ThreadOk, setThread] using hok.2.2
  | resuming | leaving =>
      simp only [hpc] at hok ⊢
      simpa [ThreadOk, setThread] using hok.1
  | got f | passed f =>
      simp only [hpc] at hok ⊢
      split <;> simpa [ThreadOk, setThread, setFuture, cancel] using hok
  | dropping f | running f =>
      simp only [hpc] at hok ⊢
      simpa [ThreadOk, setThread, setFuture, cancel] using hok
  | new | ended => exact hkeep

theorem unborn_setThread (h : s.Shared) {w : Nat} (hw : s.threads w ≠ .new) (pc : RunPc) :
    ∀ v, s.started ≤ v → (s.setThread w pc).threads v = .new := by
  intro v hv
  have hnew := h.unborn v hv
  have hne : v ≠ w := fun heq => hw (heq ▸ hnew)
  exact (Function.update_of_ne hne ..).trans hnew

theorem shared_thread (h : assertions.All s) (w : Nat) : (s.threadStep w).Shared := by
  have hshared : s.Shared := h.1
  have hok : s.ThreadOk w := h.2 (.thread w)
  rw [ThreadOk] at hok
  unfold threadStep
  cases hpc : s.threads w with
  | waiting =>
      have hunborn := unborn_setThread hshared (w := w) (by simp [hpc])
      simp only
      split
      · exact hshared
      all_goals
        rename_i hqueue
        exact hshared.of_sub (fun x hx => hqueue ▸ List.mem_cons_of_mem _ hx) rfl rfl rfl (hunborn _)
  | idle | woken =>
      have hunborn := unborn_setThread hshared (w := w) (by simp [hpc])
      simp only
      split
      · rename_i hfree
        exact ⟨hshared.wakeUp, fun _ => hshared.tasks (by simp [hfree]), hunborn _⟩
      · exact hshared
  | looking =>
      have hunborn := unborn_setThread hshared (w := w) (by simp [hpc])
      simp only [hpc] at hok ⊢
      split
      · rename_i hqueue
        refine ⟨hshared.wakeUp, fun _ ⟨f, hf⟩ => ?_, hunborn _⟩
        have hmem : some f ∈ s.queue := hf
        rw [hqueue] at hmem
        cases hmem
      · exact hshared.of_sub (fun _ => id) rfl rfl rfl (hunborn _)
  | wokenLocked =>
      have hunborn := unborn_setThread hshared (w := w) (by simp [hpc])
      simp only [hpc] at hok ⊢
      exact ⟨hshared.wakeUp, fun _ ht => absurd ht hok.2.1.2, hunborn _⟩
  | resuming =>
      have hunborn := unborn_setThread hshared (w := w) (by simp [hpc])
      simp only [hpc] at hok ⊢
      exact ⟨hshared.wakeUp, fun _ _ hnone => by simp [setThread, hok.1] at hnone, hunborn _⟩
  | leaving =>
      have hunborn := unborn_setThread hshared (w := w) (by simp [hpc])
      simp only [hpc] at hok ⊢
      exact ⟨hshared.wakeUp, fun _ => hshared.tasks (by simp [hok.2]), hunborn _⟩
  | got f | passed f =>
      have hunborn := unborn_setThread hshared (w := w) (by simp [hpc])
      simp only
      split <;> exact hshared.of_sub (fun _ => id) rfl rfl rfl (hunborn _)
  | dropping f | running f =>
      have hunborn := unborn_setThread hshared (w := w) (by simp [hpc])
      exact hshared.of_sub (fun _ => id) rfl rfl rfl (hunborn _)
  | new | ended => exact hshared

/-! ### Every step -/

/-- Whose step it is; a future is cancelled as if by its own call. -/
def actor : WatchAction → WatchParty
  | .submit c | .stop c | .call c | .giveUp c | .cancel c => .call c
  | .thread w | .timeOut w => .thread w

theorem gives : assertions.Gives Guarantee step actor := by
  intro act s h
  have hshared : s.Shared := h.1
  have hidle : ∀ c, Guarantee (.call c) s s := fun c =>
    .of (fun _ _ => rfl) (fun _ _ => rfl) (fun _ _ => id) rfl rfl id
  cases act with
  | call c => exact ⟨shared_call h c, callOk_call h c, guarantee_call h c⟩
  | thread w => exact ⟨shared_thread h w, threadOk_thread h w, guarantee_thread h w⟩
  | submit c | stop c =>
      rw [step]
      split
      · refine ⟨hshared.of_sub (fun _ => id) rfl rfl rfl hshared.unborn, ?_,
          .setCall rfl rfl (fun _ _ => id) rfl rfl id⟩
        show CallOk _ c
        simp [CallOk, setCall]
      · exact ⟨hshared, h.2 (.call c), hidle c⟩
  | cancel f =>
      exact ⟨hshared.of_sub (fun _ => id) rfl rfl rfl hshared.unborn, h.2 (.call f),
        .of (fun _ _ => rfl) (fun _ _ => rfl) (fun _ _ => id) rfl rfl id⟩
  | giveUp c =>
      rw [step]
      split
      · refine ⟨hshared.of_sub (fun _ => id) rfl rfl rfl hshared.unborn, ?_,
          .setCall rfl rfl (fun _ _ => id) rfl rfl id⟩
        show CallOk _ c
        simp [CallOk, setCall]
      · exact ⟨hshared, h.2 (.call c), hidle c⟩
  | timeOut w =>
      rw [step]
      split
      · rename_i hpc
        have hok : s.ThreadOk w := h.2 (.thread w)
        rw [ThreadOk] at hok
        simp only [hpc.1] at hok
        refine ⟨hshared.of_sub (fun _ => id) rfl rfl rfl
          (unborn_setThread hshared (by simp [hpc.1]) _), ?_,
          .setThread rfl rfl (fun _ _ => id) rfl rfl id⟩
        show ThreadOk _ w
        simpa [ThreadOk, setThread] using hok
      · exact ⟨hshared, h.2 (.thread w), .of (fun _ _ => rfl) (fun _ _ => rfl) (fun _ _ => id) rfl rfl id⟩

theorem all_new : assertions.All ({} : WatchWorker) := by
  refine ⟨⟨nofun, fun _ ht => ?_, fun _ _ => rfl⟩, fun p => ?_⟩
  · obtain ⟨f, hf⟩ := ht
    cases hf
  cases p with
  | call c => trivial
  | thread w => exact nofun

theorem all_after (acts : List WatchAction) : assertions.All (run step acts ({} : WatchWorker)) :=
  all_new.after gives stable acts

/-- There is one thread in the loop at most, the one that the worker knows. -/
theorem thread_of_inLoop (h : assertions.All s) {w : Nat} (hw : (s.threads w).inLoop = true) :
    s.thread = some w := by
  have hok : s.ThreadOk w := h.2 (.thread w)
  rw [ThreadOk] at hok
  cases hpc : s.threads w with
  | new | leaving | ended => simp [hpc, RunPc.inLoop] at hw
  | looking | resuming | woken | wokenLocked =>
      simp only [hpc] at hok
      exact hok.1
  | _ =>
      simp only [hpc] at hok
      exact hok

end WatchWorker

end MarkSdk
