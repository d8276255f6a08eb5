import MarkSdk.Gate.Steps

/-!
What a close does to the statements that are running.

A connection is closed once, and a thread that is in no statement stays out
when the store is closing. No statement loses its connection, unless a close
looks at the connection between the statement getting it and telling the gate.
-/

namespace MarkSdk

namespace GateStore

/-! ### Closed once, and unused -/

theorem GateInv.closedOnce {s : GateStore} (h : GateInv s) : s.ClosedOnce := by
  intro conn hconn
  have htotal := h.place.total conn
  have hhanded := h.place.handed conn hconn
  rw [GateStore.place] at htotal
  rw [settled] at htotal hhanded
  refine ⟨by omega, fun hleft => ?_⟩
  have horphan : s.gate.orphans.count conn = 0 := by
    refine List.count_eq_zero_of_not_mem fun hmem => h.busy.orphans conn hmem ?_
    rw [h.busy.count]
    refine List.sum_eq_zero fun n hn => ?_
    obtain ⟨th, hth, rfl⟩ := List.mem_map.mp hn
    exact List.count_eq_zero_of_not_mem (hleft th hth).2
  have hpending : (s.sum fun th => th.pc.isPending conn) = 0 := by
    refine List.sum_eq_zero fun n hn => ?_
    obtain ⟨th, hth, rfl⟩ := List.mem_map.mp hn
    exact if_neg (hleft th hth).1
  omega

/-- No statement has got a connection that is about to be closed. -/
def Unused (s : GateStore) : Prop :=
  ∀ th ∈ s.threads, ∀ conn, th.pc.pending = some conn → ∀ u ∈ s.threads, ¬ u.Uses conn

section Steps

variable {s : GateStore} {t : Nat} {th : GateThread}

theorem Unused.put (h : Unused s) (hth : s.threads[t]? = some th) {s' : GateStore}
    {th' : GateThread} (hthreads : s'.threads = s.threads.set t th')
    (huses : ∀ conn, th'.Uses conn → th.Uses conn)
    (hpending : th'.pc.pending = none ∨ th'.pc.pending = th.pc.pending) : Unused s' := by
  have hmem := List.mem_of_getElem? hth
  intro v hv conn hconn u hu huse
  have hpend : ∃ v ∈ s.threads, v.pc.pending = some conn := by
    rcases mem_put hthreads hv with rfl | hv
    · rcases hpending with hnone | hsame
      · rw [hnone] at hconn
        cases hconn
      · exact ⟨th, hmem, hsame.symm.trans hconn⟩
    · exact ⟨v, hv, hconn⟩
  obtain ⟨v, hv, hconn⟩ := hpend
  rcases mem_put hthreads hu with rfl | hu
  · exact h v hv conn hconn th hmem (huses conn huse)
  · exact h v hv conn hconn u hu huse

/-- A thread that gets a connection no thread is about to close. -/
theorem Unused.get (h : Unused s) (hth : s.threads[t]? = some th) {s' : GateStore}
    {th' : GateThread} (hthreads : s'.threads = s.threads.set t th') {conn : Nat}
    (hpc : th'.pc = .got conn) (hheld : th'.held = th.held)
    (hnone : ∀ u ∈ s.threads, u.pc.pending ≠ some conn) : Unused s' := by
  intro v hv c hc u hu huse
  have hv' : v ∈ s.threads := by
    rcases mem_put hthreads hv with rfl | hv
    · rw [hpc] at hc
      cases hc
    · exact hv
  rcases mem_put hthreads hu with rfl | hu
  · rcases huse with hgot | hbound
    · obtain rfl := GatePc.got.inj (hpc.symm.trans hgot)
      exact hnone v hv' hc
    · rw [hheld] at hbound
      exact h v hv' c hc th (List.mem_of_getElem? hth) (.inr hbound)
  · exact h v hv' c hc u hu huse

/-- A thread that puts a connection up for closing which no statement has got. -/
theorem Unused.choose (h : Unused s) (hth : s.threads[t]? = some th) {s' : GateStore}
    {th' : GateThread} (hthreads : s'.threads = s.threads.set t th')
    (hnotGot : ∀ conn, th'.pc ≠ .got conn) (hheld : ∀ held ∈ th'.held, held ∈ th.held)
    (hpending : ∀ conn, th'.pc.pending = some conn →
      (∀ u ∈ s.threads, u.pc ≠ .got conn) ∧ ∀ u ∈ s'.threads, .statement conn ∉ u.held) :
    Unused s' := by
  have hmem := List.mem_of_getElem? hth
  intro v hv conn hconn u hu huse
  rcases mem_put hthreads hv with rfl | hv
  · obtain ⟨hnone, hunbound⟩ := hpending conn hconn
    rcases huse with hgot | hbound
    · rcases mem_put hthreads hu with rfl | hu
      · exact hnotGot conn hgot
      · exact hnone u hu hgot
    · exact hunbound u hu hbound
  · rcases mem_put hthreads hu with rfl | hu
    · rcases huse with hgot | hbound
      · exact hnotGot conn hgot
      · exact h v hv conn hconn th hmem (.inr (hheld _ hbound))
    · exact h v hv conn hconn u hu huse

/-- A connection that is found idle is bound to no statement. -/
theorem closeOrOrphan_some {g : StatementGate} {conn c : Nat}
    (h : (g.closeOrOrphan conn).2 = some c) : c = conn ∧ g.busy conn = 0 := by
  unfold StatementGate.closeOrOrphan at h
  split at h
  · cases h
  · rename_i hbusy
    exact ⟨(Option.some.inj h).symm, by omega⟩

theorem Unused.handOver (h : Unused s) (hinv : GateInv s) (hth : s.threads[t]? = some th)
    {conn : Nat} {s' : GateStore} {pc : GatePc}
    (hthreads : s'.threads = s.threads.set t { th with pc })
    (hpc : pc.pending = (s.gate.closeOrOrphan conn).2) (hnotGot : ∀ conn, pc ≠ .got conn)
    (hseen : ∀ c, (s.gate.closeOrOrphan conn).2 = some c → ∀ u ∈ s.threads, u.pc ≠ .got c) :
    Unused s' := by
  refine h.choose hth hthreads hnotGot (fun held hheld => hheld) fun c hc => ?_
  have hchosen := hpc.symm.trans hc
  obtain ⟨rfl, hidle⟩ := closeOrOrphan_some hchosen
  refine ⟨hseen c hchosen, fun u hu => ?_⟩
  rcases mem_put hthreads hu with rfl | hu
  · have hunbound := hinv.busy.unbound hidle (List.mem_of_getElem? hth)
    exact hunbound
  · exact hinv.busy.unbound hidle hu

theorem Unused.leave (h : Unused s) (hinv : GateInv s) (hth : s.threads[t]? = some th)
    (hseen : ∀ conn, s.chooses th .leave = some conn → ∀ u ∈ s.threads, u.pc ≠ .got conn) :
    Unused (s.leave t th) := by
  have hinv' := hinv.leave hth
  unfold GateStore.leave at hinv' ⊢
  split at hinv'
  · rename_i conn held hpc hheld
    have hbusy : s.gate.busy conn ≠ 0 := fun hidle =>
      hinv.busy.unbound hidle (List.mem_of_getElem? hth)
        (by rw [hheld]; exact List.mem_cons_self)
    obtain ⟨hupdate, hcase⟩ := leave_gate s.gate hbusy
    refine h.choose hth rfl (fun c => ?_) (fun x hx => ?_) fun c hc => ?_
    · rcases hcase with ⟨hnone, -⟩ | ⟨hsome, -⟩
      · simp [hnone]
      · simp [hsome]
    · rw [hheld]
      exact List.mem_cons_of_mem _ hx
    · rcases hcase with ⟨hnone, -⟩ | ⟨hsome, -, hone, -⟩
      · simp [hnone, GatePc.pending] at hc
      · have heq : conn = c := by simpa [hsome, GatePc.pending] using hc
        subst heq
        refine ⟨hseen conn ?_, fun u hu => hinv'.busy.unbound ?_ hu⟩
        · simp only [chooses, hpc, hheld]
          exact hsome
        · show (s.gate.leave (some conn)).1.busy conn = 0
          rw [hupdate, Function.update_self, hone]
  · exact h

theorem Unused.giveUp (h : Unused s) (hth : s.threads[t]? = some th) {closes : List Nat} :
    Unused ({ s with closes := closes }.giveUp t th) := by
  refine h.put hth rfl (fun conn huse => ?_) (.inl rfl)
  rcases huse with hgot | hbound
  · cases hgot
  · exact .inr hbound

theorem Unused.act (h : Unused s) (hinv : GateInv s) (hth : s.threads[t]? = some th)
    {action : GateAction} (hseen : Seen (t, action) s) : Unused (s.act t th action) := by
  obtain ⟨hchooses, hgets⟩ := hseen th hth
  cases action with
  | acquire =>
      show Unused (s.acquire t th)
      unfold GateStore.acquire
      split
      · exact h.put hth rfl (fun conn huse => by simpa [GateThread.Uses] using huse) (.inr rfl)
      · exact h
  | release =>
      show Unused (s.release t th)
      unfold GateStore.release
      split
      · rename_i held hpc hheld
        exact h.put hth rfl (fun conn huse => by simpa [GateThread.Uses, hheld] using huse)
          (.inr rfl)
      · exact h
  | enter =>
      show Unused (s.enter t th)
      unfold GateStore.enter
      split
      · split
        · exact h
        · exact h.put hth rfl (fun conn huse => .inr (by simpa [GateThread.Uses] using huse))
            (.inl rfl)
      · exact h
  | check =>
      show Unused (s.check t th)
      unfold GateStore.check
      split
      · rename_i hpc
        split
        · rename_i conn hshared
          exact h.get hth rfl rfl rfl (hgets conn (by simp [gets, hpc, hshared]))
        · split
          · exact h.giveUp hth
          · exact h.put hth rfl (fun conn huse => .inr (by simpa [GateThread.Uses] using huse))
              (.inl rfl)
      · exact h
  | connect =>
      show Unused (s.connect t th)
      unfold GateStore.connect
      split
      · rename_i hpc
        split
        · rename_i handle hhandle
          exact h.get hth rfl rfl rfl (hgets handle.1 (by simp [gets, hpc, hhandle]))
        · exact h.put hth rfl (fun conn huse => .inr (by simpa [GateThread.Uses] using huse))
            (.inl rfl)
      · exact h
  | fail =>
      show Unused (s.fail t th)
      unfold GateStore.fail
      split
      · exact h.giveUp hth
      · exact h
  | register =>
      show Unused (s.register t th)
      unfold GateStore.register
      split
      · rename_i conn hpc
        split
        · split
          · exact h.giveUp hth
          · -- a connection in this place is in no other
            refine h.get hth rfl rfl rfl fun u hu hpending => ?_
            have hopened := le_sum (f := fun th => th.pc.isOpened conn) (List.mem_of_getElem? hth)
            have hpend := le_sum (f := fun th => th.pc.isPending conn) hu
            have htotal := hinv.place.total conn
            simp only [hpc, GatePc.isOpened_opened, if_true] at hopened
            simp only [GatePc.isPending_some hpending, if_true] at hpend
            rw [GateStore.place, settled] at htotal
            omega
        · exact h
      · exact h
  | bind =>
      show Unused (s.bind t th)
      unfold GateStore.bind
      split
      · rename_i conn hpc
        refine h.put hth rfl (fun c huse => ?_) (.inl rfl)
        rcases huse with hgot | hbound
        · cases hgot
        · rcases List.mem_cons.mp hbound with heq | hbound
          · obtain rfl := Held.statement.inj heq
            exact .inl hpc
          · exact .inr hbound
      · exact h
  | leave => exact h.leave hinv hth hchooses
  | closeConn =>
      show Unused (s.closeConn t th)
      unfold GateStore.closeConn
      split
      all_goals first
        | exact h
        | exact h.put hth rfl (fun conn huse => .inr (by simpa [GateThread.Uses] using huse))
            (.inl rfl)
  | beginClose =>
      show Unused (s.beginClose t th)
      unfold GateStore.beginClose
      split
      · exact h.put hth rfl (fun conn huse => .inr (by simpa [GateThread.Uses] using huse))
          (.inl rfl)
      · exact h
  | endWait timedOut =>
      show Unused (s.endWait t th timedOut)
      unfold GateStore.endWait
      split
      · exact h.put hth rfl (fun conn huse => .inr (by simpa [GateThread.Uses] using huse))
          (.inl rfl)
      · exact h
  | takeOver =>
      show Unused (s.takeOver t th)
      unfold GateStore.takeOver
      split
      · exact h.put hth rfl (fun conn huse => .inr (by simpa [GateThread.Uses] using huse))
          (.inl rfl)
      · exact h
  | hand =>
      show Unused (s.hand t th)
      unfold GateStore.hand
      split
      · rename_i hpc
        split
        · exact h.put hth rfl (fun conn huse => .inr (by simpa [GateThread.Uses] using huse))
            (.inl rfl)
        · rename_i conn hshared
          refine h.handOver hinv hth rfl rfl (by simp) fun c hc => hchooses c ?_
          simp only [chooses, hpc, hshared]
          exact hc
      · exact h.put hth rfl (fun conn huse => .inr (by simpa [GateThread.Uses] using huse))
          (.inl rfl)
      · rename_i conn rest hpc
        refine h.handOver hinv hth rfl rfl (by simp) fun c hc => hchooses c ?_
        simp only [chooses, hpc]
        exact hc
      · exact h.put hth rfl (fun conn huse => .inr (by simpa [GateThread.Uses] using huse))
          (.inl rfl)
      · exact h

end Steps

theorem Unused.step {s : GateStore} (h : Unused s) (hinv : GateInv s)
    {action : Nat × GateAction} (hseen : Seen action s) : Unused (step action s) := by
  unfold GateStore.step
  split
  · exact h
  · rename_i th hth
    exact h.act hinv hth hseen

/-! ### Who is admitted -/

/-- The thread took the step, and is in a statement only if it was before,
once the store is closing. -/
def Refuses (s : GateStore) (t : Nat) (th : GateThread) (s' : GateStore) : Prop :=
  ∃ th', s'.threads = s.threads.set t th' ∧ (s.gate.closing = true → th'.Inside → th.Inside)

section Steps

variable {s : GateStore} {t : Nat} {th : GateThread}

theorem refuses_self (hth : s.threads[t]? = some th) : Refuses s t th s := by
  obtain ⟨hlt, rfl⟩ := List.getElem?_eq_some_iff.mp hth
  exact ⟨s.threads[t], (List.set_getElem_self hlt).symm, fun _ hin => hin⟩

/-- A step out of a statement, or within one. -/
theorem refuses_put {s' : GateStore} {th' : GateThread} (hthreads : s'.threads = s.threads.set t th')
    (hin : th.pc.inStatement = true ∨ th'.pc.inStatement = false ∧
      ∀ conn, .statement conn ∈ th'.held → .statement conn ∈ th.held) : Refuses s t th s' := by
  refine ⟨th', hthreads, fun _ hinside => ?_⟩
  rcases hin with hin | ⟨hout, hheld⟩
  · exact .inl hin
  · rcases hinside with hin | ⟨conn, hconn⟩
    · rw [hout] at hin
      cases hin
    · exact .inr ⟨conn, hheld conn hconn⟩

/-- A thread that is in no statement has depth 0. -/
theorem GateInv.inside (h : GateInv s) (hth : s.threads[t]? = some th) (hdepth : th.depth ≠ 0) :
    th.Inside := by
  have heq := h.depth_eq hth
  by_cases hin : th.pc.inStatement = true
  · exact .inl hin
  · rw [if_neg hin] at heq
    obtain ⟨held, hmem, hstatement⟩ := List.countP_pos_iff.mp
      (show 0 < th.held.countP Held.isStatement by omega)
    cases held with
    | lock => cases hstatement
    | statement conn => exact .inr ⟨conn, hmem⟩

theorem GateInv.refuses (h : GateInv s) (hth : s.threads[t]? = some th) (action : GateAction) :
    Refuses s t th (s.act t th action) := by
  cases action with
  | acquire =>
      show Refuses s t th (s.acquire t th)
      unfold GateStore.acquire
      split
      · rename_i hguard
        exact refuses_put rfl (.inr ⟨by simp [hguard.1, GatePc.inStatement], fun _ hc => by
          simpa using hc⟩)
      · exact refuses_self hth
  | release =>
      show Refuses s t th (s.release t th)
      unfold GateStore.release
      split
      · rename_i held hpc hheld
        exact refuses_put rfl (.inr ⟨by simp [hpc, GatePc.inStatement], fun _ hc => by
          simpa [hheld] using hc⟩)
      · exact refuses_self hth
  | enter =>
      show Refuses s t th (s.enter t th)
      unfold GateStore.enter StatementGate.enter
      split
      · split
        · exact refuses_self hth
        · rename_i gate hgate
          split at hgate
          · cases hgate
          · rename_i hguard
            exact ⟨_, rfl, fun hclosing _ => h.inside hth fun hdepth => hguard ⟨hclosing, hdepth⟩⟩
      · exact refuses_self hth
  | check =>
      show Refuses s t th (s.check t th)
      unfold GateStore.check GateStore.giveUp
      split
      · rename_i hpc
        have hin : th.pc.inStatement = true := by rw [hpc]; rfl
        split
        · exact refuses_put rfl (.inl hin)
        · split
          · exact refuses_put rfl (.inl hin)
          · exact refuses_put rfl (.inl hin)
      · exact refuses_self hth
  | connect =>
      show Refuses s t th (s.connect t th)
      unfold GateStore.connect
      split
      · rename_i hpc
        have hin : th.pc.inStatement = true := by rw [hpc]; rfl
        split
        · exact refuses_put rfl (.inl hin)
        · exact refuses_put rfl (.inl hin)
      · exact refuses_self hth
  | fail =>
      show Refuses s t th (s.fail t th)
      unfold GateStore.fail GateStore.giveUp
      split
      · rename_i hpc
        exact refuses_put rfl (.inl (by rw [hpc]; rfl))
      · exact refuses_self hth
  | register =>
      show Refuses s t th (s.register t th)
      unfold GateStore.register GateStore.giveUp
      split
      · rename_i conn hpc
        have hin : th.pc.inStatement = true := by rw [hpc]; rfl
        split
        · split
          · exact refuses_put rfl (.inl hin)
          · exact refuses_put rfl (.inl hin)
        · exact refuses_self hth
      · exact refuses_self hth
  | bind =>
      show Refuses s t th (s.bind t th)
      unfold GateStore.bind
      split
      · rename_i conn hpc
        exact refuses_put rfl (.inl (by rw [hpc]; rfl))
      · exact refuses_self hth
  | leave =>
      show Refuses s t th (s.leave t th)
      unfold GateStore.leave
      split
      · rename_i conn held hpc hheld
        refine refuses_put rfl (.inr ⟨?_, fun c hc => by
          rw [hheld]
          exact List.mem_cons_of_mem _ hc⟩)
        cases (s.gate.leave (some conn)).2 <;> rfl
      · exact refuses_self hth
  | closeConn =>
      show Refuses s t th (s.closeConn t th)
      unfold GateStore.closeConn
      split
      all_goals first
        | exact refuses_put rfl (.inr ⟨rfl, fun _ hc => hc⟩)
        | exact refuses_self hth
  | beginClose =>
      show Refuses s t th (s.beginClose t th)
      unfold GateStore.beginClose
      split
      · exact refuses_put rfl (.inr ⟨rfl, fun _ hc => hc⟩)
      · exact refuses_self hth
  | endWait timedOut =>
      show Refuses s t th (s.endWait t th timedOut)
      unfold GateStore.endWait
      split
      · exact refuses_put rfl (.inr ⟨rfl, fun _ hc => hc⟩)
      · exact refuses_self hth
  | takeOver =>
      show Refuses s t th (s.takeOver t th)
      unfold GateStore.takeOver
      split
      · exact refuses_put rfl (.inr ⟨rfl, fun _ hc => hc⟩)
      · exact refuses_self hth
  | hand =>
      show Refuses s t th (s.hand t th)
      unfold GateStore.hand
      split
      · split
        · exact refuses_put rfl (.inr ⟨rfl, fun _ hc => hc⟩)
        · exact refuses_put rfl (.inr ⟨rfl, fun _ hc => hc⟩)
      all_goals first
        | exact refuses_put rfl (.inr ⟨rfl, fun _ hc => hc⟩)
        | exact refuses_self hth

end Steps

theorem GateInv.refused {s : GateStore} (h : GateInv s) (action : Nat × GateAction)
    (hclosing : s.gate.closing = true) (t : Nat) (th th' : GateThread)
    (hth : s.threads[t]? = some th) (hth' : (GateStore.step action s).threads[t]? = some th')
    (hout : ¬ th.Inside) : ¬ th'.Inside := by
  unfold GateStore.step at hth'
  split at hth'
  · obtain rfl := Option.some.inj (hth.symm.trans hth')
    exact hout
  · rename_i actor hactor
    obtain ⟨actor', hthreads, hrefuses⟩ := h.refuses hactor action.2
    rcases getElem?_put hactor hthreads hth' with ⟨rfl, rfl⟩ | ⟨-, hsame⟩
    · obtain rfl := Option.some.inj (hth.symm.trans hactor)
      exact fun hin => hout (hrefuses hclosing hin)
    · obtain rfl := Option.some.inj (hth.symm.trans hsame)
      exact hout

theorem safe_of_inv {s : GateStore} (hinv : GateInv s) (h : Unused s) (action : Nat × GateAction) :
    Safe action s where
  unused th conn hth _ hpending :=
    h th (List.mem_of_getElem? hth) conn hpending
  refused := hinv.refused action

theorem unused_start (isMemory : Bool) (n : Nat) : Unused (start isMemory n) := by
  intro th hth conn hpending
  obtain rfl := List.eq_of_mem_replicate hth
  cases hpending

/-- In a run in which no close overlooks a statement, every connection that
is handed to a close is closed once, and no step closes a connection that a
statement has got or admits a new one when the store is closing. -/
theorem close_waits_for_statements (isMemory : Bool) (n : Nat) (actions : List (Nat × GateAction))
    (hseen : Lib.Along step Seen actions (start isMemory n)) :
    Lib.Along step Safe actions (start isMemory n) ∧
      (Lib.run step actions (start isMemory n)).ClosedOnce := by
  have hstep : ∀ action s, GateInv s ∧ Unused s → Seen action s →
      GateInv (step action s) ∧ Unused (step action s) := fun action s h hs =>
    ⟨h.1.step action, h.2.step h.1 hs⟩
  have hstart := And.intro (gateInv_start isMemory n) (unused_start isMemory n)
  refine ⟨?_, (Lib.Along.invariant hstep hstart hseen).1.closedOnce⟩
  rw [Lib.along_iff_forall]
  intro before action after hsplit
  have hbefore := Lib.Along.invariant_within hstep hstart hseen ⟨action :: after, hsplit.symm⟩
  exact safe_of_inv hbefore.1 hbefore.2 action

instance (action : Nat × GateAction) (s : GateStore) : Decidable (Seen action s) :=
  decidable_of_iff
    (∀ th ∈ s.threads[action.1]?, (∀ conn ∈ s.chooses th action.2, ∀ u ∈ s.threads,
        u.pc ≠ .got conn) ∧ ∀ conn ∈ s.gets th action.2, ∀ u ∈ s.threads,
          u.pc.pending ≠ some conn) Iff.rfl

/-- A statement that outlives the wait closes its connection itself. -/
theorem close_waits_for_statements_orphan :
    let actions := [(0, .enter), (0, .check), (0, .connect), (0, .register), (0, .bind),
      (1, .beginClose), (1, .endWait true), (1, .takeOver), (1, .hand), (1, .hand), (1, .hand),
      (0, .leave), (0, .closeConn)]
    Lib.Along step Safe actions (start false 2) ∧
      (Lib.run step actions (start false 2)).ClosedOnce :=
  close_waits_for_statements false 2 _ (by decide)

/-- A statement has got its connection, and not told the gate, when the wait
for it is over. -/
theorem close_overlooks_statement :
    ¬ ∀ isMemory n actions, Lib.Along step Safe actions (start isMemory n) ∧
      (Lib.run step actions (start isMemory n)).ClosedOnce := by
  intro h
  obtain ⟨hsafe, -⟩ := h false 2 [(0, .enter), (0, .check), (0, .connect), (0, .register),
    (1, .beginClose), (1, .endWait true), (1, .takeOver), (1, .hand), (1, .hand), (1, .closeConn)]
  have hclose := Lib.along_iff_forall.mp hsafe [(0, .enter), (0, .check), (0, .connect),
    (0, .register), (1, .beginClose), (1, .endWait true), (1, .takeOver), (1, .hand), (1, .hand)]
    (1, .closeConn) [] rfl
  exact hclose.unused { pc := .handing (some 0) [] } 0 rfl rfl rfl
    { pc := .got 0, depth := 1, handle := some (0, 0) } List.mem_cons_self (.inl rfl)

end GateStore

end MarkSdk
