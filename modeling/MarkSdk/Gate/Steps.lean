import MarkSdk.Gate.Places

/-!
Every step of a thread keeps what holds of the store.
-/

namespace MarkSdk

namespace GateStore

/-! ### All of it -/

structure GateInv (s : GateStore) : Prop where
  lock : LockInv s
  depth : DepthInv s
  busy : BusyInv s
  place : PlaceInv s
  sections : SectionInv s

section Steps

variable {s : GateStore} {t : Nat} {th : GateThread}

theorem GateInv.depth_eq (h : GateInv s) (hth : s.threads[t]? = some th) : th.depth =
    th.held.countP Held.isStatement + if th.pc.inStatement then 1 else 0 :=
  h.depth th (List.mem_of_getElem? hth)

theorem GateInv.giveUp (h : GateInv s) (hth : s.threads[t]? = some th)
    (hpc : th.pc = .entered ∨ th.pc = .checked) : GateInv (s.giveUp t th) := by
  have hdepth := h.depth_eq hth
  rcases hpc with hpc | hpc
  all_goals
    rw [hpc] at hdepth
    exact {
      lock := h.lock.same hth rfl rfl (by simp [locks, hpc, GatePc.inSection])
      depth := h.depth.put rfl (by simp [hdepth, GatePc.inStatement])
      busy := h.busy.same hth rfl rfl rfl fun _ => rfl
      place := h.place.same hth rfl rfl rfl rfl rfl rfl rfl
        (fun _ => by simp [hpc, GatePc.isOpened]) (by simp [hpc, GatePc.pending])
      sections := h.sections.same hth rfl rfl rfl rfl (by simp [hpc, GatePc.inSection]) rfl }

theorem GateInv.acquire (h : GateInv s) (hth : s.threads[t]? = some th) :
    GateInv (s.acquire t th) := by
  unfold GateStore.acquire
  split
  · rename_i hguard
    obtain ⟨hpc, hfree⟩ := hguard
    have hdepth := h.depth_eq hth
    exact {
      lock := h.lock.take hth hfree rfl rfl (by simp only [locks, List.count_cons_self]; omega)
      depth := h.depth.put rfl (by simpa [Held.isStatement] using hdepth)
      busy := h.busy.same hth rfl rfl rfl fun _ => by simp
      place := h.place.same hth rfl rfl rfl rfl rfl rfl rfl (fun _ => rfl) rfl
      sections := h.sections.same hth rfl rfl rfl rfl (by simp [hpc, GatePc.inSection])
        (by simp [hpc, GatePc.inSection]) }
  · exact h

theorem GateInv.release (h : GateInv s) (hth : s.threads[t]? = some th) :
    GateInv (s.release t th) := by
  unfold GateStore.release
  split
  · rename_i held hpc hheld
    have hdepth := h.depth_eq hth
    rw [hheld] at hdepth
    exact {
      lock := h.lock.drop hth rfl rfl (by simp only [locks, hheld, List.count_cons_self]; omega)
      depth := h.depth.put rfl (by simpa [Held.isStatement] using hdepth)
      busy := h.busy.same hth rfl rfl rfl fun _ => by simp [hheld]
      place := h.place.same hth rfl rfl rfl rfl rfl rfl rfl (fun _ => rfl) rfl
      sections := h.sections.same hth rfl rfl rfl rfl (by simp [hpc, GatePc.inSection])
        (by simp [hpc, GatePc.inSection]) }
  · exact h

theorem GateInv.enter (h : GateInv s) (hth : s.threads[t]? = some th) :
    GateInv (s.enter t th) := by
  unfold GateStore.enter
  split
  · rename_i hguard
    obtain ⟨hpc, -⟩ := hguard
    have hdepth := h.depth_eq hth
    rw [hpc] at hdepth
    unfold StatementGate.enter
    split
    · exact h
    · rename_i gate hgate
      split at hgate
      · cases hgate
      · obtain rfl := Option.some.inj hgate
        exact {
          lock := h.lock.same hth rfl rfl (by simp [locks, hpc, GatePc.inSection])
          depth := h.depth.put rfl (by simp [hdepth, GatePc.inStatement])
          busy := h.busy.same hth rfl rfl rfl fun _ => rfl
          place := h.place.same hth rfl rfl rfl rfl rfl rfl rfl
            (fun _ => by simp [hpc, GatePc.isOpened]) (by simp [hpc, GatePc.pending])
          sections := h.sections.same hth rfl rfl rfl rfl (by simp [hpc, GatePc.inSection]) rfl }
  · exact h

/-- A thread that gets a connection of the store, or none yet. -/
theorem GateInv.goOn (h : GateInv s) (hth : s.threads[t]? = some th)
    (hpc : th.pc = .entered ∨ th.pc = .checked) {pc : GatePc}
    (hpc' : pc = .checked ∨ ∃ conn, pc = .got conn) : GateInv (s.put t { th with pc }) := by
  have hdepth := h.depth_eq hth
  have hstatement : th.pc.inStatement = true := by rcases hpc with h | h <;> rw [h] <;> rfl
  have hstatement' : pc.inStatement = true := by
    rcases hpc' with rfl | ⟨conn, rfl⟩ <;> rfl
  have hsection : th.pc.inSection = false := by rcases hpc with h | h <;> rw [h] <;> rfl
  have hsection' : pc.inSection = false := by
    rcases hpc' with rfl | ⟨conn, rfl⟩ <;> rfl
  exact {
    lock := h.lock.same hth rfl rfl (by simp [locks, hsection, hsection'])
    depth := h.depth.put rfl (by simpa [hstatement, hstatement'] using hdepth)
    busy := h.busy.same hth rfl rfl rfl fun _ => rfl
    place := h.place.same hth rfl rfl rfl rfl rfl rfl rfl
      (fun _ => by
        rcases hpc with h | h <;> rcases hpc' with rfl | ⟨conn, rfl⟩ <;>
          simp [h, GatePc.isOpened])
      (by
        rcases hpc with h | h <;> rcases hpc' with rfl | ⟨conn, rfl⟩ <;>
          simp [h, GatePc.pending])
    sections := h.sections.same hth rfl rfl rfl rfl hsection hsection' }

theorem GateInv.check (h : GateInv s) (hth : s.threads[t]? = some th) :
    GateInv (s.check t th) := by
  unfold GateStore.check
  split
  · rename_i hpc
    split
    · rename_i conn hshared
      exact h.goOn hth (.inl hpc) (.inr ⟨conn, rfl⟩)
    · split
      · exact h.giveUp hth (.inl hpc)
      · exact h.goOn hth (.inl hpc) (.inl rfl)
  · exact h

theorem GateInv.fail (h : GateInv s) (hth : s.threads[t]? = some th) : GateInv (s.fail t th) := by
  unfold GateStore.fail
  split
  · rename_i hpc
    exact h.giveUp hth (.inr hpc)
  · exact h

/-- A new connection is in one place. -/
theorem PlaceInv.open (h : PlaceInv s) (hth : s.threads[t]? = some th) (hpc : th.pc = .checked)
    {s' : GateStore} {th' : GateThread} (hthreads : s'.threads = s.threads.set t th')
    (hpc' : th'.pc = .opened s.opened) (horphans : s'.gate.orphans = s.gate.orphans)
    (hshared : s'.shared = s.shared) (hconns : s'.conns = s.conns) (hhanded : s'.handed = s.handed)
    (hcloses : s'.closes = s.closes) (hopened : s'.opened = s.opened + 1) : PlaceInv s' := by
  have hsumOpened : ∀ conn, (s'.sum fun th => th.pc.isOpened conn) =
      (s.sum fun th => th.pc.isOpened conn) + if s.opened = conn then 1 else 0 := by
    intro conn
    have hsum := sum_pc (f := GatePc.isOpened conn) hth hthreads
    rwa [hpc, hpc', GatePc.isOpened_eq_zero (by simp), GatePc.isOpened_opened] at hsum
  have hsettled : ∀ conn, s'.settled conn = s.settled conn := by
    intro conn
    rw [settled, settled, horphans, hcloses, sum_same hth hthreads]
    rw [hpc, hpc', GatePc.isPending_none rfl, GatePc.isPending_none rfl]
  have hplace : ∀ conn, s'.place conn = s.place conn + if s.opened = conn then 1 else 0 := by
    intro conn
    rw [place, place, hsettled, hsumOpened, stock, stock, hhanded, hshared, hconns]
    omega
  refine ⟨fun conn => ?_, fun conn hconn => ?_, fun conn hconn => ?_⟩
  · rw [hplace]
    have htotal := h.total conn
    split
    · rename_i heq
      have hfresh := h.fresh conn (Nat.le_of_eq heq)
      omega
    · omega
  · rw [hopened] at hconn
    rw [hplace, h.fresh conn (by omega), if_neg (by omega)]
  · rw [hsettled]
    exact h.handed conn (hhanded ▸ hconn)

theorem GateInv.connect (h : GateInv s) (hth : s.threads[t]? = some th) :
    GateInv (s.connect t th) := by
  unfold GateStore.connect
  split
  · rename_i hpc
    split
    · rename_i handle hhandle
      exact h.goOn hth (.inr hpc) (.inr ⟨handle.1, rfl⟩)
    · have hdepth := h.depth_eq hth
      rw [hpc] at hdepth
      exact {
        lock := h.lock.same hth rfl rfl (by simp [locks, hpc, GatePc.inSection])
        depth := h.depth.put rfl (by simpa [GatePc.inStatement] using hdepth)
        busy := h.busy.same hth rfl rfl rfl fun _ => rfl
        place := h.place.open hth hpc rfl rfl rfl rfl rfl rfl rfl rfl
        sections := h.sections.same hth rfl rfl rfl rfl (by simp [hpc, GatePc.inSection]) rfl }
  · exact h

/-- A connection that its thread opened is listed, or closed at once. -/
theorem PlaceInv.settleOpened (h : PlaceInv s) (hth : s.threads[t]? = some th) {c : Nat}
    (hpc : th.pc = .opened c) {s' : GateStore} {th' : GateThread}
    (hthreads : s'.threads = s.threads.set t th') (hisOpened : ∀ c, th'.pc ≠ .opened c)
    (hpending : th'.pc.pending = none) (horphans : s'.gate.orphans = s.gate.orphans)
    (hshared : s'.shared = s.shared) (hhanded : s'.handed = s.handed)
    (hopened : s'.opened = s.opened)
    (hcase : s'.conns = s.conns ++ [c] ∧ s'.closes = s.closes ∨
      s'.conns = s.conns ∧ s'.closes = c :: s.closes) : PlaceInv s' := by
  have hsum : ∀ conn, (s'.sum fun th => th.pc.isOpened conn) + (if c = conn then 1 else 0) =
      s.sum fun th => th.pc.isOpened conn := by
    intro conn
    have hsum := sum_pc (f := GatePc.isOpened conn) hth hthreads
    rwa [hpc, GatePc.isOpened_opened, GatePc.isOpened_eq_zero hisOpened] at hsum
  have hsumPending : ∀ conn, (s'.sum fun th => th.pc.isPending conn) =
      s.sum fun th => th.pc.isPending conn := by
    intro conn
    rw [sum_same hth hthreads]
    rw [hpc, GatePc.isPending_none hpending, GatePc.isPending_none rfl]
  refine h.of_le (fun conn => ?_) (Nat.le_of_eq hopened.symm) fun conn hconn => ?_
  · have hone := hsum conn
    rw [place, place, settled, settled, horphans, hsumPending, stock, stock, hhanded, hshared]
    rcases hcase with ⟨hconns, hcloses⟩ | ⟨hconns, hcloses⟩
    · rw [hconns, hcloses]
      simp only [List.count_append, List.count_singleton, beq_iff_eq]
      split <;> omega
    · rw [hconns, hcloses, List.count_cons]
      simp only [beq_iff_eq]
      omega
  · have hold := h.handed conn (hhanded ▸ hconn)
    rw [settled] at hold ⊢
    rw [horphans, hsumPending]
    rcases hcase with ⟨-, hcloses⟩ | ⟨-, hcloses⟩
    · rw [hcloses]
      exact hold
    · rw [hcloses, List.count_cons]
      omega

/-- The connection that was about to be closed is closed. -/
theorem PlaceInv.close (h : PlaceInv s) (hth : s.threads[t]? = some th) {c : Nat}
    (hpc : th.pc.pending = some c) {s' : GateStore} {th' : GateThread}
    (hthreads : s'.threads = s.threads.set t th') (hisOpened : ∀ c, th.pc ≠ .opened c)
    (hisOpened' : ∀ c, th'.pc ≠ .opened c) (hpending : th'.pc.pending = none)
    (horphans : s'.gate.orphans = s.gate.orphans) (hshared : s'.shared = s.shared)
    (hconns : s'.conns = s.conns) (hhanded : s'.handed = s.handed)
    (hopened : s'.opened = s.opened) (hcloses : s'.closes = c :: s.closes) : PlaceInv s' := by
  have hsettled : ∀ conn, s'.settled conn = s.settled conn := by
    intro conn
    have hsum := sum_pc (f := GatePc.isPending conn) hth hthreads
    rw [GatePc.isPending_some hpc, GatePc.isPending_none hpending] at hsum
    rw [settled, settled, horphans, hcloses, List.count_cons]
    simp only [beq_iff_eq]
    omega
  refine h.of_le (fun conn => ?_) (Nat.le_of_eq hopened.symm) fun conn hconn => ?_
  · have hsum := sum_pc (f := GatePc.isOpened conn) hth hthreads
    rw [GatePc.isOpened_eq_zero hisOpened, GatePc.isOpened_eq_zero hisOpened'] at hsum
    rw [place, place, hsettled, stock, stock, hhanded, hshared, hconns]
    omega
  · rw [hsettled]
    exact h.handed conn (hhanded ▸ hconn)

/-- The last statement of an orphan is about to close it. -/
theorem PlaceInv.adopt (h : PlaceInv s) (hth : s.threads[t]? = some th) {c : Nat}
    (hmem : c ∈ s.gate.orphans) (hpc : th.pc = .caller) {s' : GateStore} {th' : GateThread}
    (hthreads : s'.threads = s.threads.set t th') (hpc' : th'.pc = .leaving c)
    (horphans : s'.gate.orphans = s.gate.orphans.erase c) (hshared : s'.shared = s.shared)
    (hconns : s'.conns = s.conns) (hhanded : s'.handed = s.handed) (hcloses : s'.closes = s.closes)
    (hopened : s'.opened = s.opened) : PlaceInv s' := by
  have hsettled : ∀ conn, s'.settled conn = s.settled conn := by
    intro conn
    have hsum := sum_pc (f := GatePc.isPending conn) hth hthreads
    rw [hpc, hpc', GatePc.isPending_none rfl, GatePc.isPending_some rfl] at hsum
    have hcount : 1 ≤ s.gate.orphans.count c := List.count_pos_iff.mpr hmem
    rw [settled, settled, horphans, hcloses, List.count_erase]
    by_cases heq : c = conn
    · subst heq
      simp only [if_true, beq_self_eq_true] at hsum ⊢
      omega
    · rw [if_neg heq] at hsum
      simp only [beq_iff_eq, if_neg heq]
      omega
  refine h.of_le (fun conn => ?_) (Nat.le_of_eq hopened.symm) fun conn hconn => ?_
  · have hsum := sum_pc (f := GatePc.isOpened conn) hth hthreads
    rw [hpc, hpc', GatePc.isOpened_eq_zero (by simp), GatePc.isOpened_eq_zero (by simp)] at hsum
    rw [place, place, hsettled, stock, stock, hhanded, hshared, hconns]
    omega
  · rw [hsettled]
    exact h.handed conn (hhanded ▸ hconn)

/-- A connection that is handed over is about to be closed, or an orphan. -/
theorem PlaceInv.hand (h : PlaceInv s) (hth : s.threads[t]? = some th) {c : Nat}
    (hnew : c ∉ s.handed) (hstock : c ∈ s.shared.toList ++ s.conns) (hpc : th.pc.pending = none)
    (hisOpened : ∀ c, th.pc ≠ .opened c) {s' : GateStore} {th' : GateThread}
    (hthreads : s'.threads = s.threads.set t th') (hisOpened' : ∀ c, th'.pc ≠ .opened c)
    (hgate : s'.gate = (s.gate.closeOrOrphan c).1)
    (hpc' : th'.pc.pending = (s.gate.closeOrOrphan c).2) (hshared : s'.shared = s.shared)
    (hconns : s'.conns = s.conns) (hhanded : s'.handed = c :: s.handed)
    (hcloses : s'.closes = s.closes) (hopened : s'.opened = s.opened) : PlaceInv s' := by
  have hsettled : ∀ conn, s.settled conn ≤ s'.settled conn ∧
      s'.settled conn ≤ s.settled conn + (if c = conn then 1 else 0) ∧
      (c = conn → 1 ≤ s'.settled conn) := by
    intro conn
    have hsum := sum_pc (f := GatePc.isPending conn) hth hthreads
    rw [GatePc.isPending_none hpc] at hsum
    rw [settled, settled, hgate, hcloses]
    by_cases hbusy : s.gate.busy c = 0
    · have hidle : s.gate.closeOrOrphan c = (s.gate, some c) := if_neg (by simp [hbusy])
      rw [hidle] at hpc' ⊢
      rw [GatePc.isPending_some hpc'] at hsum
      dsimp only
      refine ⟨by omega, by omega, ?_⟩
      rintro rfl
      rw [if_pos rfl] at hsum
      omega
    · have hgiven : s.gate.closeOrOrphan c = ({ s.gate with
          orphans := if c ∈ s.gate.orphans then s.gate.orphans else c :: s.gate.orphans }, none) :=
        if_pos hbusy
      rw [hgiven] at hpc' ⊢
      rw [GatePc.isPending_none hpc'] at hsum
      dsimp only
      by_cases hmem : c ∈ s.gate.orphans
      · rw [if_pos hmem]
        have hcount : 1 ≤ s.gate.orphans.count c := List.count_pos_iff.mpr hmem
        refine ⟨by omega, by omega, ?_⟩
        rintro rfl
        omega
      · rw [if_neg hmem, List.count_cons]
        simp only [beq_iff_eq]
        split <;> omega
  refine h.of_le (fun conn => ?_) (Nat.le_of_eq hopened.symm) fun conn hconn => ?_
  · have hsum := sum_pc (f := GatePc.isOpened conn) hth hthreads
    rw [GatePc.isOpened_eq_zero hisOpened, GatePc.isOpened_eq_zero hisOpened'] at hsum
    obtain ⟨-, hle, -⟩ := hsettled conn
    rw [place, place, stock, stock, hhanded, hshared, hconns]
    by_cases heq : c = conn
    · subst heq
      have hcount : 1 ≤ (s.shared.toList ++ s.conns).count c := List.count_pos_iff.mpr hstock
      rw [if_pos rfl] at hle
      rw [if_pos List.mem_cons_self, if_neg hnew]
      omega
    · rw [if_neg heq] at hle
      have hmem : conn ∈ c :: s.handed ↔ conn ∈ s.handed := by
        simp [Ne.symm heq]
      simp only [hmem]
      omega
  · obtain ⟨hge, -, hone⟩ := hsettled conn
    rw [hhanded] at hconn
    rcases List.mem_cons.mp hconn with rfl | hconn
    · exact hone rfl
    · exact (h.handed conn hconn).trans hge

/-- A store that forgets connections. -/
theorem PlaceInv.forget (h : PlaceInv s) (hth : s.threads[t]? = some th) {s' : GateStore}
    {th' : GateThread} (hthreads : s'.threads = s.threads.set t th')
    (hisOpened : ∀ c, th.pc ≠ .opened c) (hisOpened' : ∀ c, th'.pc ≠ .opened c)
    (hpc : th.pc.pending = none) (hpc' : th'.pc.pending = none)
    (horphans : s'.gate.orphans = s.gate.orphans)
    (hstock : (s'.shared.toList ++ s'.conns).Sublist (s.shared.toList ++ s.conns))
    (hhanded : s'.handed = s.handed) (hcloses : s'.closes = s.closes)
    (hopened : s'.opened = s.opened) : PlaceInv s' := by
  have hsettled : ∀ conn, s'.settled conn = s.settled conn := by
    intro conn
    rw [settled, settled, horphans, hcloses, sum_same hth hthreads]
    rw [GatePc.isPending_none hpc, GatePc.isPending_none hpc']
  refine h.of_le (fun conn => ?_) (Nat.le_of_eq hopened.symm) fun conn hconn => ?_
  · have hsum := sum_pc (f := GatePc.isOpened conn) hth hthreads
    rw [GatePc.isOpened_eq_zero hisOpened, GatePc.isOpened_eq_zero hisOpened'] at hsum
    have hcount := hstock.count_le conn
    rw [place, place, hsettled, stock, stock, hhanded]
    split <;> omega
  · rw [hsettled]
    exact h.handed conn (hhanded ▸ hconn)

/-- No thread hands connections over while another one has the lock. -/
theorem GateInv.no_section (h : GateInv s) (hth : s.threads[t]? = some th)
    (hfree : s.lockFree t = true) (hsection : th.pc.inSection = false) :
    ∀ u ∈ s.threads, u.pc.inSection = false := by
  intro u hu
  obtain ⟨i, hi⟩ := List.mem_iff_getElem?.mp hu
  cases hin : u.pc.inSection with
  | false => rfl
  | true =>
      obtain rfl := h.lock.section_owner hi hin hfree
      obtain rfl := Option.some.inj (hth.symm.trans hi)
      rw [hsection] at hin
      cases hin

theorem GateInv.discard (h : GateInv s) (hth : s.threads[t]? = some th) {conn : Nat}
    (hpc : th.pc = .opened conn) :
    GateInv ({ s with closes := conn :: s.closes }.giveUp t th) := by
  have hdepth := h.depth_eq hth
  rw [hpc] at hdepth
  exact {
    lock := h.lock.same hth rfl rfl (by simp [locks, hpc, GatePc.inSection])
    depth := h.depth.put rfl (by simp [hdepth, GatePc.inStatement])
    busy := h.busy.same hth rfl rfl rfl fun _ => rfl
    place := h.place.settleOpened hth hpc rfl (by simp) rfl rfl rfl rfl rfl (.inr ⟨rfl, rfl⟩)
    sections := h.sections.same hth rfl rfl rfl rfl (by simp [hpc, GatePc.inSection]) rfl }

theorem GateInv.list (h : GateInv s) (hth : s.threads[t]? = some th) {conn : Nat}
    (hpc : th.pc = .opened conn) (hfree : s.lockFree t = true) (handle : Option (Nat × Nat)) :
    GateInv ({ s with conns := s.conns ++ [conn] }.put t
      { th with pc := .got conn, handle := handle }) := by
  have hdepth := h.depth_eq hth
  rw [hpc] at hdepth
  have hsection : th.pc.inSection = false := by rw [hpc]; rfl
  have hnone := h.no_section hth hfree hsection
  have hnew := h.place.not_handed (List.mem_of_getElem? hth) hpc
  refine {
    lock := h.lock.same hth rfl rfl (by simp [locks, hpc, GatePc.inSection])
    depth := h.depth.put rfl (by simpa [GatePc.inStatement] using hdepth)
    busy := h.busy.same hth rfl rfl rfl fun _ => rfl
    place := h.place.settleOpened hth hpc rfl (by simp) rfl rfl rfl rfl rfl (.inl ⟨rfl, rfl⟩)
    sections := ⟨fun u hu conns hr => ?_, fun u hu pending conns hu' => ?_, fun _ c hc => ?_⟩ }
  · rcases mem_put rfl hu with rfl | hu
    · cases hr
    · have hin := hnone u hu
      rw [rest_of_inSection hr] at hin
      cases hin
  · rcases mem_put rfl hu with rfl | hu
    · cases hu'
    · exact h.sections.shared u hu pending conns hu'
  · have hc' : c ∈ s.shared.toList ++ (s.conns ++ [conn]) := hc
    rw [← List.append_assoc] at hc'
    rcases List.mem_append.mp hc' with hold | hlast
    · exact h.sections.idle hnone c hold
    · obtain rfl := List.mem_singleton.mp hlast
      exact hnew

theorem GateInv.register (h : GateInv s) (hth : s.threads[t]? = some th) :
    GateInv (s.register t th) := by
  unfold GateStore.register
  split
  · rename_i conn hpc
    split
    · rename_i hfree
      split
      · exact h.discard hth hpc
      · exact h.list hth hpc hfree _
    · exact h
  · exact h

theorem BusyInv.bind (h : BusyInv s) (hth : s.threads[t]? = some th) (conn : Nat) :
    BusyInv ({ s with gate := s.gate.bind conn }.put t
      { th with pc := .caller, held := .statement conn :: th.held }) where
  count c := by
    have hthreads : ({ s with gate := s.gate.bind conn }.put t
        { th with pc := .caller, held := .statement conn :: th.held }).threads =
        s.threads.set t { th with pc := .caller, held := .statement conn :: th.held } := rfl
    have hsum := sum_put (f := fun th => th.held.count (.statement c)) hth hthreads
    have hold := h.count c
    simp only [List.count_cons, beq_iff_eq, Held.statement.injEq] at hsum
    show Function.update s.gate.busy conn (s.gate.busy conn + 1) c = _
    by_cases heq : c = conn
    · subst heq
      rw [if_pos rfl] at hsum
      rw [Function.update_self]
      omega
    · rw [if_neg (Ne.symm heq)] at hsum
      rw [Function.update_of_ne heq]
      omega
  orphans c hc := by
    show Function.update s.gate.busy conn (s.gate.busy conn + 1) c ≠ 0
    by_cases heq : c = conn
    · subst heq
      rw [Function.update_self]
      omega
    · rw [Function.update_of_ne heq]
      exact h.orphans c hc

theorem GateInv.bind (h : GateInv s) (hth : s.threads[t]? = some th) : GateInv (s.bind t th) := by
  unfold GateStore.bind
  split
  · rename_i conn hpc
    have hdepth := h.depth_eq hth
    rw [hpc] at hdepth
    exact {
      lock := h.lock.same hth rfl rfl (by simp [locks, hpc, GatePc.inSection])
      depth := h.depth.put rfl (by simpa [GatePc.inStatement, countP_statement] using hdepth)
      busy := h.busy.bind hth conn
      place := h.place.same hth rfl rfl rfl rfl rfl rfl rfl
        (fun _ => by simp [hpc, GatePc.isOpened]) (by simp [hpc, GatePc.pending])
      sections := h.sections.same hth rfl rfl rfl rfl (by simp [hpc, GatePc.inSection]) rfl }
  · exact h

/-- What leaving a statement does to the gate. -/
theorem leave_gate (g : StatementGate) {conn : Nat} (hbusy : g.busy conn ≠ 0) :
    (g.leave (some conn)).1.busy = Function.update g.busy conn (g.busy conn - 1) ∧
      ((g.leave (some conn)).2 = none ∧ (g.leave (some conn)).1.orphans = g.orphans ∧
          (conn ∈ g.orphans → g.busy conn ≠ 1) ∨
        (g.leave (some conn)).2 = some conn ∧ conn ∈ g.orphans ∧ g.busy conn = 1 ∧
          (g.leave (some conn)).1.orphans = g.orphans.erase conn) := by
  by_cases hone : g.busy conn = 1
  · by_cases hmem : conn ∈ g.orphans
    · simp [StatementGate.leave, hone, hmem]
    · simp [StatementGate.leave, hone, hmem, List.erase_of_not_mem hmem]
  · simp [StatementGate.leave, hone, hbusy]

theorem BusyInv.leave (h : BusyInv s) (hplace : PlaceInv s) (hth : s.threads[t]? = some th)
    {conn : Nat} {held : List Held} (hheld : th.held = .statement conn :: held) {s' : GateStore}
    {th' : GateThread} (hthreads : s'.threads = s.threads.set t th') (hheld' : th'.held = held)
    (hgate : s'.gate = (s.gate.leave (some conn)).1) (hbusy : s.gate.busy conn ≠ 0) :
    BusyInv s' := by
  obtain ⟨hupdate, hcase⟩ := leave_gate s.gate hbusy
  refine ⟨fun c => ?_, fun c hc => ?_⟩
  · have hsum := sum_put (f := fun th => th.held.count (.statement c)) hth hthreads
    have hold := h.count c
    simp only [hheld, hheld', List.count_cons, beq_iff_eq, Held.statement.injEq] at hsum
    rw [hgate, hupdate]
    by_cases heq : c = conn
    · subst heq
      rw [if_pos rfl] at hsum
      rw [Function.update_self]
      omega
    · rw [if_neg (Ne.symm heq)] at hsum
      rw [Function.update_of_ne heq]
      omega
  · rw [hgate] at hc ⊢
    rw [hupdate]
    by_cases heq : c = conn
    · subst heq
      rw [Function.update_self]
      rcases hcase with ⟨-, horphans, hone⟩ | ⟨-, hmem, -, horphans⟩
      · rw [horphans] at hc
        have hne := hone hc
        omega
      · -- an orphan is listed once
        rw [horphans] at hc
        have htotal := hplace.total c
        have hcount := List.count_erase_self (a := c) (l := s.gate.orphans)
        have hpos := List.count_pos_iff.mpr hc
        rw [place, settled] at htotal
        omega
    · rw [Function.update_of_ne heq]
      rcases hcase with ⟨-, horphans, -⟩ | ⟨-, -, -, horphans⟩
      · exact h.orphans c (horphans ▸ hc)
      · rw [horphans] at hc
        exact h.orphans c (List.mem_of_mem_erase hc)

theorem GateInv.leave (h : GateInv s) (hth : s.threads[t]? = some th) : GateInv (s.leave t th) := by
  unfold GateStore.leave
  split
  · rename_i conn held hpc hheld
    have hdepth := h.depth_eq hth
    rw [hpc, hheld] at hdepth
    have hbusy : s.gate.busy conn ≠ 0 := fun hidle =>
      h.busy.unbound hidle (List.mem_of_getElem? hth) (by rw [hheld]; exact List.mem_cons_self)
    obtain ⟨-, ⟨hnone, horphans, -⟩ | ⟨hsome, hmem, -, horphans⟩⟩ := leave_gate s.gate hbusy
    · exact {
        lock := h.lock.same hth rfl rfl (by simp [locks, hnone, hpc, hheld])
        depth := h.depth.put rfl (by
          rw [hnone]
          simp [hdepth, GatePc.inStatement, countP_statement])
        busy := h.busy.leave h.place hth hheld rfl rfl rfl hbusy
        place := h.place.same hth rfl horphans rfl rfl rfl rfl rfl
          (fun _ => by rw [hnone, hpc]; rfl) (by rw [hnone, hpc]; rfl)
        sections := h.sections.same hth rfl rfl rfl rfl (by simp [hpc, GatePc.inSection])
          (by rw [hnone]; rfl) }
    · exact {
        lock := h.lock.same hth rfl rfl (by simp [locks, hsome, hpc, hheld, GatePc.inSection])
        depth := h.depth.put rfl (by
          rw [hsome]
          simp [hdepth, GatePc.inStatement, countP_statement])
        busy := h.busy.leave h.place hth hheld rfl rfl rfl hbusy
        place := h.place.adopt hth hmem hpc rfl (by rw [hsome]; rfl) horphans rfl rfl rfl rfl rfl
        sections := h.sections.same hth rfl rfl rfl rfl (by simp [hpc, GatePc.inSection])
          (by rw [hsome]; rfl) }
  · exact h

/-- A thread in a section goes on to what it has still to hand over. -/
theorem LockInv.advance (hlock : LockInv s) (hth : s.threads[t]? = some th)
    (hsection : th.pc.inSection = true) {s' : GateStore} {th' : GateThread}
    (hthreads : s'.threads = s.threads.set t th') (hsection' : th'.pc.inSection = true)
    (hrest : ∀ conns, s'.rest th'.pc = some conns →
      conns.Nodup ∧ ∀ conn ∈ conns, conn ∉ s'.handed ∧ conn ∈ s'.shared.toList ++ s'.conns)
    (hshared : ∀ pending conns, th'.pc = .handing pending conns → s'.shared = none) :
    SectionInv s' := by
  have hother : ∀ u ∈ s'.threads, u = th' ∨ u.pc.inSection = false := by
    intro u hu
    obtain ⟨i, hi⟩ := List.mem_iff_getElem?.mp hu
    rcases getElem?_put hth hthreads hi with ⟨-, rfl⟩ | ⟨hne, hi⟩
    · exact .inl rfl
    · cases hin : u.pc.inSection with
      | false => exact .inr rfl
      | true => exact absurd (hlock.section_unique hth hsection hi hin) hne
  refine ⟨fun u hu conns hr => ?_, fun u hu pending conns hpc => ?_, fun hnone => ?_⟩
  · rcases hother u hu with rfl | hout
    · exact hrest conns hr
    · rw [rest_of_inSection hr] at hout
      cases hout
  · rcases hother u hu with rfl | hout
    · exact hshared pending conns hpc
    · rw [hpc] at hout
      cases hout
  · have hmem : th' ∈ s'.threads := by
      rw [hthreads]
      exact List.mem_set (List.getElem?_eq_some_iff.mp hth).1 th'
    rw [hnone th' hmem] at hsection'
    cases hsection'

theorem GateInv.closeLeft (h : GateInv s) (hth : s.threads[t]? = some th) {conn : Nat}
    (hpc : th.pc = .leaving conn) :
    GateInv ({ s with closes := conn :: s.closes }.put t { th with pc := .caller }) := by
  have hdepth := h.depth_eq hth
  rw [hpc] at hdepth
  exact {
    lock := h.lock.same hth rfl rfl (by simp [locks, hpc, GatePc.inSection])
    depth := h.depth.put rfl (by simpa [GatePc.inStatement] using hdepth)
    busy := h.busy.same hth rfl rfl rfl fun _ => rfl
    place := h.place.close hth (by rw [hpc]; rfl) rfl (by simp [hpc]) (by simp) rfl rfl rfl rfl rfl
      rfl rfl
    sections := h.sections.same hth rfl rfl rfl rfl (by simp [hpc, GatePc.inSection]) rfl }

/-- The closing of a connection within a section. -/
theorem GateInv.closeHanded (h : GateInv s) (hth : s.threads[t]? = some th) {conn : Nat}
    (hpc : th.pc.pending = some conn) (hsection : th.pc.inSection = true) {pc : GatePc}
    (hpc' : pc.pending = none) (hsection' : pc.inSection = true)
    (hrest : s.rest pc = s.rest th.pc)
    (hhanding : ∀ pending conns, pc = .handing pending conns →
      ∃ pending', th.pc = .handing pending' conns) :
    GateInv ({ s with closes := conn :: s.closes }.put t { th with pc }) := by
  have hdepth := h.depth_eq hth
  have hmem := List.mem_of_getElem? hth
  have hopened : ∀ c, th.pc ≠ .opened c := fun c heq => by rw [heq] at hsection; cases hsection
  have hopened' : ∀ c, pc ≠ .opened c := fun c heq => by rw [heq] at hsection'; cases hsection'
  have hstatement : th.pc.inStatement = false := by
    cases hthpc : th.pc <;> first | rfl | (rw [hthpc] at hsection; cases hsection)
  have hstatement' : pc.inStatement = false := by
    cases pc <;> first | rfl | cases hsection'
  exact {
    lock := h.lock.same hth rfl rfl (by simp [locks, hsection, hsection'])
    depth := h.depth.put rfl (by simpa [hstatement, hstatement'] using hdepth)
    busy := h.busy.same hth rfl rfl rfl fun _ => rfl
    place := h.place.close hth hpc rfl hopened hopened' hpc' rfl rfl rfl rfl rfl rfl
    sections := h.lock.advance hth hsection rfl hsection'
      (fun conns hr => h.sections.rest th hmem conns (hrest ▸ hr))
      fun pending conns heq => by
        obtain ⟨pending', hthpc⟩ := hhanding pending conns heq
        exact h.sections.shared th hmem pending' conns hthpc }

theorem GateInv.closeConn (h : GateInv s) (hth : s.threads[t]? = some th) :
    GateInv (s.closeConn t th) := by
  unfold GateStore.closeConn
  split
  · rename_i conn hpc
    exact h.closeLeft hth hpc
  · rename_i conn hpc
    exact h.closeHanded hth (by rw [hpc]; rfl) (by rw [hpc]; rfl) rfl rfl (by rw [hpc]; rfl)
      fun pending conns heq => by cases heq
  · rename_i conn rest hpc
    refine h.closeHanded hth (by rw [hpc]; rfl) (by rw [hpc]; rfl) rfl rfl (by rw [hpc]; rfl) ?_
    intro pending conns heq
    obtain ⟨-, rfl⟩ := GatePc.handing.inj heq
    exact ⟨some conn, hpc⟩
  · exact h

theorem GateInv.beginClose (h : GateInv s) (hth : s.threads[t]? = some th) :
    GateInv (s.beginClose t th) := by
  unfold GateStore.beginClose
  split
  · rename_i hpc
    have hdepth := h.depth_eq hth
    rw [hpc] at hdepth
    exact {
      lock := h.lock.same hth rfl rfl (by simp [locks, hpc, GatePc.inSection])
      depth := h.depth.put rfl (by simpa [GatePc.inStatement] using hdepth)
      busy := h.busy.same hth rfl rfl rfl fun _ => rfl
      place := h.place.same hth rfl rfl rfl rfl rfl rfl rfl
        (fun _ => by simp [hpc, GatePc.isOpened]) (by simp [hpc, GatePc.pending])
      sections := h.sections.same hth rfl rfl rfl rfl (by simp [hpc, GatePc.inSection]) rfl }
  · exact h

theorem GateInv.endWait (h : GateInv s) (hth : s.threads[t]? = some th) (timedOut : Bool) :
    GateInv (s.endWait t th timedOut) := by
  unfold GateStore.endWait
  split
  · rename_i hguard
    obtain ⟨hpc, -⟩ := hguard
    have hdepth := h.depth_eq hth
    rw [hpc] at hdepth
    exact {
      lock := h.lock.same hth rfl rfl (by simp [locks, hpc, GatePc.inSection])
      depth := h.depth.put rfl (by simpa [GatePc.inStatement] using hdepth)
      busy := h.busy.same hth rfl rfl rfl fun _ => rfl
      place := h.place.same hth rfl rfl rfl rfl rfl rfl rfl
        (fun _ => by simp [hpc, GatePc.isOpened]) (by simp [hpc, GatePc.pending])
      sections := h.sections.same hth rfl rfl rfl rfl (by simp [hpc, GatePc.inSection]) rfl }
  · exact h

theorem GateInv.takeOver (h : GateInv s) (hth : s.threads[t]? = some th) :
    GateInv (s.takeOver t th) := by
  unfold GateStore.takeOver
  split
  · rename_i hguard
    obtain ⟨hpc, hfree⟩ := hguard
    have hdepth := h.depth_eq hth
    rw [hpc] at hdepth
    have hnone := h.no_section hth hfree (by rw [hpc]; rfl)
    have hstock := h.sections.idle hnone
    refine {
      lock := h.lock.take hth hfree rfl rfl (by simp [locks, hpc, GatePc.inSection])
      depth := h.depth.put rfl (by simpa [GatePc.inStatement] using hdepth)
      busy := h.busy.same hth rfl rfl rfl fun _ => rfl
      place := h.place.same hth rfl rfl rfl rfl rfl rfl rfl
        (fun _ => by simp [hpc, GatePc.isOpened]) (by simp [hpc, GatePc.pending])
      sections := ⟨fun u hu conns hr => ?_, fun u hu pending conns hu' => ?_, fun hall => ?_⟩ }
    · rcases mem_put rfl hu with rfl | hu
      · obtain rfl := Option.some.inj hr
        refine ⟨List.nodup_iff_count_le_one.mpr fun conn => ?_, fun conn hconn =>
          ⟨hstock conn hconn, hconn⟩⟩
        by_cases hmem : conn ∈ s.shared.toList ++ s.conns
        · have htotal := h.place.total conn
          rw [GateStore.place, stock, if_neg (hstock conn hmem)] at htotal
          show (s.shared.toList ++ s.conns).count conn ≤ 1
          omega
        · show (s.shared.toList ++ s.conns).count conn ≤ 1
          rw [List.count_eq_zero_of_not_mem hmem]
          omega
      · have hin := hnone u hu
        rw [rest_of_inSection hr] at hin
        cases hin
    · rcases mem_put rfl hu with rfl | hu
      · cases hu'
      · have hin := hnone u hu
        rw [hu'] at hin
        cases hin
    · have hsection := hall { th with pc := .handShared }
        (List.mem_set (List.getElem?_eq_some_iff.mp hth).1 _)
      cases hsection
  · exact h

/-- One call of `close_or_orphan`. -/
theorem GateInv.handOver (h : GateInv s) (hth : s.threads[t]? = some th) {conn : Nat}
    {rest : List Nat} (hpc : th.pc.pending = none) (hsection : th.pc.inSection = true)
    (hrest : s.rest th.pc = some (conn :: rest)) {pc : GatePc}
    (hpc' : pc.pending = (s.gate.closeOrOrphan conn).2) (hsection' : pc.inSection = true)
    (hrest' : s.rest pc = some rest)
    (hhanding : ∀ pending conns, pc = .handing pending conns → s.shared = none) :
    GateInv ({ s with
      gate := (s.gate.closeOrOrphan conn).1
      handed := conn :: s.handed }.put t { th with pc }) := by
  have hdepth := h.depth_eq hth
  have hmem := List.mem_of_getElem? hth
  obtain ⟨hnodup, hstock⟩ := h.sections.rest th hmem (conn :: rest) hrest
  obtain ⟨hfirst, hnodup'⟩ := List.nodup_cons.mp hnodup
  have hopened : ∀ c, th.pc ≠ .opened c := fun c heq => by rw [heq] at hsection; cases hsection
  have hopened' : ∀ c, pc ≠ .opened c := fun c heq => by rw [heq] at hsection'; cases hsection'
  have hstatement : th.pc.inStatement = false := by
    cases hthpc : th.pc <;> first | rfl | (rw [hthpc] at hsection; cases hsection)
  have hstatement' : pc.inStatement = false := by
    cases pc <;> first | rfl | cases hsection'
  have hbusy : (s.gate.closeOrOrphan conn).1.busy = s.gate.busy := by
    unfold StatementGate.closeOrOrphan
    split <;> rfl
  obtain ⟨hnew, hin⟩ := hstock conn List.mem_cons_self
  refine {
    lock := h.lock.same hth rfl rfl (by simp [locks, hsection, hsection'])
    depth := h.depth.put rfl (by simpa [hstatement, hstatement'] using hdepth)
    busy := ⟨fun c => ?_, fun c hc => ?_⟩
    place := h.place.hand hth hnew hin hpc hopened rfl hopened' rfl hpc' rfl rfl rfl rfl rfl
    sections := h.lock.advance hth hsection rfl hsection' (fun conns hr => ?_) hhanding }
  · show (s.gate.closeOrOrphan conn).1.busy c = _
    rw [hbusy, h.busy.count]
    exact (sum_same hth (show _ = s.threads.set t { th with pc } from rfl) rfl).symm
  · show (s.gate.closeOrOrphan conn).1.busy c ≠ 0
    rw [hbusy]
    have hc' : c ∈ (s.gate.closeOrOrphan conn).1.orphans := hc
    unfold StatementGate.closeOrOrphan at hc'
    split at hc'
    · rename_i hused
      split at hc'
      · exact h.busy.orphans c hc'
      · rcases List.mem_cons.mp hc' with rfl | hc'
        · exact hused
        · exact h.busy.orphans c hc'
    · exact h.busy.orphans c hc'
  · obtain rfl := Option.some.inj (hrest'.symm.trans hr)
    refine ⟨hnodup', fun c hc => ?_⟩
    obtain ⟨hold, hin'⟩ := hstock c (List.mem_cons_of_mem conn hc)
    refine ⟨fun hc' => ?_, hin'⟩
    rcases List.mem_cons.mp hc' with rfl | hc'
    · exact hfirst hc
    · exact hold hc'

/-- The loop over the connections starts. -/
theorem GateInv.startLoop (h : GateInv s) (hth : s.threads[t]? = some th)
    (hpc : th.pc.pending = none) (hsection : th.pc.inSection = true)
    (hrest : s.rest th.pc = some s.conns) :
    GateInv ({ s with shared := none }.put t { th with pc := .handing none s.conns }) := by
  have hdepth := h.depth_eq hth
  have hopened : ∀ c, th.pc ≠ .opened c := fun c heq => by rw [heq] at hsection; cases hsection
  have hstatement : th.pc.inStatement = false := by
    cases hthpc : th.pc <;> first | rfl | (rw [hthpc] at hsection; cases hsection)
  refine {
    lock := h.lock.same hth rfl rfl (by rw [locks, locks, if_pos hsection]; rfl)
    depth := h.depth.put rfl (by
      rw [hstatement] at hdepth
      simpa [GatePc.inStatement] using hdepth)
    busy := h.busy.same hth rfl rfl rfl fun _ => rfl
    place := h.place.forget hth rfl hopened (by simp) hpc rfl rfl (List.sublist_append_right _ _)
      rfl rfl rfl
    sections := h.lock.advance hth hsection rfl rfl (fun conns hr => ?_) fun _ _ _ => rfl }
  obtain rfl := Option.some.inj hr
  obtain ⟨hnodup, hstock⟩ := h.sections.rest th (List.mem_of_getElem? hth) s.conns hrest
  exact ⟨hnodup, fun conn hconn => ⟨(hstock conn hconn).1, List.mem_append_right _ hconn⟩⟩

/-- All connections are handed over, and the lock is given back. -/
theorem GateInv.finish (h : GateInv s) (hth : s.threads[t]? = some th)
    (hpc : th.pc = .handing none []) :
    GateInv ({ s with
      conns := [], generation := s.generation + 1, lock := s.lockReleased }.put t
      { th with pc := .caller, handle := none }) := by
  have hdepth := h.depth_eq hth
  rw [hpc] at hdepth
  have hshared := h.sections.shared th (List.mem_of_getElem? hth) none [] hpc
  have hother : ∀ u ∈ s.threads, u.pc.inSection = true → u = th := by
    intro u hu hin
    obtain ⟨i, hi⟩ := List.mem_iff_getElem?.mp hu
    obtain rfl := h.lock.section_unique hth (by rw [hpc]; rfl) hi hin
    exact Option.some.inj (hi.symm.trans hth)
  refine {
    lock := h.lock.drop hth rfl rfl (by simp [locks, hpc, GatePc.inSection])
    depth := h.depth.put rfl (by simpa [GatePc.inStatement] using hdepth)
    busy := h.busy.same hth rfl rfl rfl fun _ => rfl
    place := h.place.forget hth rfl (by simp [hpc]) (by simp) (by rw [hpc]; rfl) rfl rfl
      (by
        show (s.shared.toList ++ []).Sublist _
        rw [List.append_nil]
        exact List.sublist_append_left _ _) rfl rfl rfl
    sections := ⟨fun u hu conns hr => ?_, fun u hu pending conns hu' => ?_, fun _ c hc => ?_⟩ }
  · rcases mem_put rfl hu with rfl | hu
    · cases hr
    · obtain rfl := hother u hu (rest_of_inSection hr)
      rw [hpc] at hr
      obtain rfl := Option.some.inj hr
      exact ⟨List.nodup_nil, by simp⟩
  · rcases mem_put rfl hu with rfl | hu
    · cases hu'
    · exact h.sections.shared u hu pending conns hu'
  · have hc' : c ∈ s.shared.toList ++ [] := hc
    rw [hshared] at hc'
    cases hc'

theorem GateInv.hand (h : GateInv s) (hth : s.threads[t]? = some th) : GateInv (s.hand t th) := by
  unfold GateStore.hand
  split
  · rename_i hpc
    split
    · rename_i hshared
      have hloop := h.startLoop hth (by rw [hpc]; rfl) (by rw [hpc]; rfl)
        (by rw [hpc, GateStore.rest, hshared]; rfl)
      have hself : { s with shared := none } = s := by
        rw [← hshared]
      rwa [hself] at hloop
    · rename_i conn hshared
      exact h.handOver hth (by rw [hpc]; rfl) (by rw [hpc]; rfl)
        (by rw [hpc, GateStore.rest, hshared]; rfl) rfl rfl rfl fun _ _ heq => by cases heq
  · rename_i hpc
    exact h.startLoop hth (by rw [hpc]; rfl) (by rw [hpc]; rfl) (by rw [hpc]; rfl)
  · rename_i conn rest hpc
    exact h.handOver hth (by rw [hpc]; rfl) (by rw [hpc]; rfl) (by rw [hpc]; rfl)
      rfl rfl rfl fun _ _ _ => h.sections.shared th (List.mem_of_getElem? hth) _ _ hpc
  · rename_i hpc
    exact h.finish hth hpc
  · exact h

theorem GateInv.act (h : GateInv s) (hth : s.threads[t]? = some th) (action : GateAction) :
    GateInv (s.act t th action) := by
  cases action with
  | acquire => exact h.acquire hth
  | release => exact h.release hth
  | enter => exact h.enter hth
  | check => exact h.check hth
  | connect => exact h.connect hth
  | fail => exact h.fail hth
  | register => exact h.register hth
  | bind => exact h.bind hth
  | leave => exact h.leave hth
  | closeConn => exact h.closeConn hth
  | beginClose => exact h.beginClose hth
  | endWait timedOut => exact h.endWait hth timedOut
  | takeOver => exact h.takeOver hth
  | hand => exact h.hand hth

end Steps

theorem GateInv.step {s : GateStore} (h : GateInv s) (action : Nat × GateAction) :
    GateInv (step action s) := by
  unfold GateStore.step
  split
  · exact h
  · rename_i th hth
    exact h.act hth action.2

theorem sum_start (isMemory : Bool) (n : Nat) {f : GateThread → Nat} (hf : f {} = 0) :
    (start isMemory n).sum f = 0 := by
  rw [sum, start, List.map_replicate, hf, List.sum_replicate, Nat.nsmul_eq_mul, Nat.mul_zero]

theorem gateInv_start (isMemory : Bool) (n : Nat) : GateInv (start isMemory n) := by
  have hidle : ∀ th ∈ (start isMemory n).threads, th = {} := fun th hth =>
    List.eq_of_mem_replicate hth
  have hplace : ∀ conn, (start isMemory n).place conn =
      ((start isMemory n).shared.toList).count conn := by
    intro conn
    rw [place, settled, sum_start _ _ rfl, sum_start _ _ rfl]
    simp [stock, start]
  refine {
    lock := ⟨fun t th hth => ?_, fun u n hn => by cases hn⟩
    depth := fun th hth => by rw [hidle th hth]; rfl
    busy := ⟨fun conn => by rw [sum_start _ _ rfl]; rfl, fun conn hconn => by cases hconn⟩
    place := ⟨fun conn => ?_, fun conn hconn => ?_, fun conn hconn => by cases hconn⟩
    sections := ⟨fun th hth conns hr => ?_, fun th hth pending conns hpc => ?_,
      fun _ conn _ hconn => by cases hconn⟩ }
  · rw [hidle th (List.mem_of_getElem? hth)]
    rfl
  · rw [hplace]
    cases isMemory with
    | false => exact Nat.zero_le 1
    | true => exact List.count_le_length
  · rw [hplace]
    cases isMemory with
    | false => rfl
    | true =>
        have hpos : 1 ≤ conn := hconn
        exact List.count_eq_zero_of_not_mem fun hmem => by
          obtain rfl := List.mem_singleton.mp hmem
          omega
  · rw [hidle th hth] at hr
    cases hr
  · rw [hidle th hth] at hpc
    cases hpc

end GateStore

end MarkSdk
