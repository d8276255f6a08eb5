import Mathlib.Algebra.Ring.Nat
import Mathlib.Data.List.Nodup
import Mathlib.Algebra.BigOperators.Group.List.Basic
import Mathlib.Algebra.Order.BigOperators.Group.List
import Mathlib.Algebra.Order.Group.Nat
import MarkSdk.Gate.Threads

/-!
What holds of the threads and connections of a store.

The lock has one owner, the gate counts the statements that are bound, and a
connection is in one place: still to be handed over, left to its statements,
about to be closed, or closed.
-/

namespace MarkSdk

namespace GateStore

/-! ### Sums over the threads -/

def sum (s : GateStore) (f : GateThread → Nat) : Nat := (s.threads.map f).sum

section Sums

variable {s s' : GateStore} {t : Nat} {th th' : GateThread} {f : GateThread → Nat}

theorem sum_set {threads : List GateThread} (h : threads[t]? = some th) :
    ((threads.set t th').map f).sum + f th = (threads.map f).sum + f th' := by
  induction threads generalizing t with
  | nil => cases h
  | cons u threads ih =>
      cases t with
      | zero =>
          obtain rfl := Option.some.inj h
          simp only [List.set_cons_zero, List.map_cons, List.sum_cons]
          omega
      | succ t =>
          have hrest := ih (t := t) h
          simp only [List.set_cons_succ, List.map_cons, List.sum_cons]
          omega

theorem sum_put (hth : s.threads[t]? = some th) (hthreads : s'.threads = s.threads.set t th') :
    s'.sum f + f th = s.sum f + f th' := by
  rw [sum, hthreads]
  exact sum_set hth

theorem sum_pc {f : GatePc → Nat} (hth : s.threads[t]? = some th)
    (hthreads : s'.threads = s.threads.set t th') :
    (s'.sum fun th => f th.pc) + f th.pc = (s.sum fun th => f th.pc) + f th'.pc :=
  sum_put (f := fun th => f th.pc) hth hthreads

theorem sum_same (hth : s.threads[t]? = some th) (hthreads : s'.threads = s.threads.set t th')
    (h : f th' = f th) : s'.sum f = s.sum f := by
  have hput := sum_put (f := f) hth hthreads
  omega

theorem le_sum (hth : th ∈ s.threads) : f th ≤ s.sum f :=
  List.le_sum_of_mem (List.mem_map_of_mem hth)

theorem mem_put (hthreads : s'.threads = s.threads.set t th') {u : GateThread}
    (hu : u ∈ s'.threads) : u = th' ∨ u ∈ s.threads := by
  rw [hthreads] at hu
  exact (List.mem_or_eq_of_mem_set hu).symm

end Sums

/-! ### The lock -/

/-- How often a thread has taken the lock. -/
def locks (th : GateThread) : Nat := th.held.count .lock + if th.pc.inSection then 1 else 0

def lockCount (s : GateStore) (t : Nat) : Nat :=
  match s.lock with
  | some (u, n) => if u = t then n else 0
  | none => 0

structure LockInv (s : GateStore) : Prop where
  owner : ∀ t th, s.threads[t]? = some th → locks th = s.lockCount t
  taken : ∀ u n, s.lock = some (u, n) → 1 ≤ n

section Lock

variable {s s' : GateStore} {t : Nat} {th th' : GateThread}

theorem getElem?_put (hth : s.threads[t]? = some th) (hthreads : s'.threads = s.threads.set t th')
    {u : Nat} {thu : GateThread} (hu : s'.threads[u]? = some thu) :
    u = t ∧ thu = th' ∨ u ≠ t ∧ s.threads[u]? = some thu := by
  rw [hthreads] at hu
  by_cases heq : u = t
  · subst heq
    rw [List.getElem?_set_self (List.getElem?_eq_some_iff.mp hth).1] at hu
    exact .inl ⟨rfl, (Option.some.inj hu).symm⟩
  · rw [List.getElem?_set_ne (Ne.symm heq)] at hu
    exact .inr ⟨heq, hu⟩

theorem LockInv.same (h : LockInv s) (hth : s.threads[t]? = some th)
    (hthreads : s'.threads = s.threads.set t th') (hlock : s'.lock = s.lock)
    (hlocks : locks th' = locks th) : LockInv s' where
  owner := by
    intro u thu hu
    have hcount : s'.lockCount u = s.lockCount u := by rw [lockCount, hlock, lockCount]
    rw [hcount]
    rcases getElem?_put hth hthreads hu with ⟨rfl, rfl⟩ | ⟨-, hu⟩
    · rw [hlocks, h.owner _ _ hth]
    · exact h.owner _ _ hu
  taken := by
    rw [hlock]
    exact h.taken

theorem LockInv.take (h : LockInv s) (hth : s.threads[t]? = some th) (hfree : s.lockFree t = true)
    (hthreads : s'.threads = s.threads.set t th') (hlock : s'.lock = s.lockTaken t)
    (hlocks : locks th' = locks th + 1) : LockInv s' := by
  have hold := h.owner t th hth
  cases hown : s.lock with
  | none =>
      have hlock' : s'.lock = some (t, 1) := by rw [hlock, lockTaken, hown]
      refine ⟨fun u thu hu => ?_, fun u n hn => ?_⟩
      · rcases getElem?_put hth hthreads hu with ⟨rfl, rfl⟩ | ⟨hne, hu⟩
        · simp only [lockCount, hown] at hold
          simp only [lockCount, hlock', if_pos]
          omega
        · have hother := h.owner u thu hu
          simp only [lockCount, hown] at hother
          simp only [lockCount, hlock', if_neg (Ne.symm hne)]
          omega
      · rw [hlock'] at hn
        obtain ⟨rfl, rfl⟩ := Prod.mk.inj (Option.some.inj hn)
        exact Nat.le_refl 1
  | some owner =>
      obtain ⟨u, n⟩ := owner
      obtain rfl : u = t := by simpa [lockFree, hown] using hfree
      have hlock' : s'.lock = some (u, n + 1) := by rw [hlock, lockTaken, hown]
      refine ⟨fun v thv hv => ?_, fun v m hm => ?_⟩
      · rcases getElem?_put hth hthreads hv with ⟨rfl, rfl⟩ | ⟨hne, hv⟩
        · simp only [lockCount, hown, if_pos] at hold
          simp only [lockCount, hlock', if_pos]
          omega
        · have hother := h.owner v thv hv
          simp only [lockCount, hown, if_neg (Ne.symm hne)] at hother
          simp only [lockCount, hlock', if_neg (Ne.symm hne)]
          omega
      · rw [hlock'] at hm
        obtain ⟨rfl, rfl⟩ := Prod.mk.inj (Option.some.inj hm)
        omega

theorem LockInv.drop (h : LockInv s) (hth : s.threads[t]? = some th)
    (hthreads : s'.threads = s.threads.set t th') (hlock : s'.lock = s.lockReleased)
    (hlocks : locks th = locks th' + 1) : LockInv s' := by
  have hold := h.owner t th hth
  cases hown : s.lock with
  | none =>
      simp only [lockCount, hown] at hold
      omega
  | some owner =>
      obtain ⟨u, n⟩ := owner
      obtain rfl : u = t := by
        by_contra hne
        simp only [lockCount, hown, if_neg hne] at hold
        omega
      simp only [lockCount, hown, if_pos] at hold
      have hcount : ∀ v, s'.lockCount v = if u = v then n - 1 else 0 := by
        intro v
        rw [lockCount, hlock, lockReleased, hown]
        match n, hold with
        | 0, _ => simp
        | 1, _ => simp
        | n + 2, _ => rfl
      refine ⟨fun v thv hv => ?_, fun v m hm => ?_⟩
      · rw [hcount]
        rcases getElem?_put hth hthreads hv with ⟨rfl, rfl⟩ | ⟨hne, hv⟩
        · rw [if_pos rfl]
          omega
        · have hother := h.owner v thv hv
          simp only [lockCount, hown, if_neg (Ne.symm hne)] at hother
          rw [if_neg (Ne.symm hne), hother]
      · rw [hlock, lockReleased, hown] at hm
        match n, hm with
        | n + 2, hm =>
            obtain ⟨rfl, rfl⟩ := Prod.mk.inj (Option.some.inj hm)
            omega

/-- While a thread hands connections over, no other has the lock. -/
theorem LockInv.section_owner (h : LockInv s) {u : Nat} {thu : GateThread}
    (hu : s.threads[u]? = some thu) (hsection : thu.pc.inSection = true)
    (hfree : s.lockFree t = true) : u = t := by
  have hcount := h.owner u thu hu
  rw [locks, if_pos hsection] at hcount
  cases hown : s.lock with
  | none =>
      simp only [lockCount, hown] at hcount
      omega
  | some owner =>
      obtain ⟨v, n⟩ := owner
      obtain rfl : v = t := by simpa [lockFree, hown] using hfree
      by_contra hne
      simp only [lockCount, hown, if_neg (Ne.symm hne)] at hcount
      omega

theorem LockInv.section_unique (h : LockInv s) (hth : s.threads[t]? = some th)
    (hsection : th.pc.inSection = true) {u : Nat} {thu : GateThread}
    (hu : s.threads[u]? = some thu) (hsection' : thu.pc.inSection = true) : u = t := by
  refine h.section_owner hu hsection' ?_
  have hcount := h.owner t th hth
  rw [locks, if_pos hsection] at hcount
  cases hown : s.lock with
  | none => simp [lockFree, hown]
  | some owner =>
      obtain ⟨v, n⟩ := owner
      by_cases hv : v = t
      · simp [lockFree, hown, hv]
      · simp only [lockCount, hown, if_neg hv] at hcount
        omega

end Lock

/-! ### The statements of a connection -/

def Held.isStatement : Held → Bool
  | .statement _ => true
  | .lock => false

theorem countP_statement (conn : Nat) (held : List Held) :
    (Held.statement conn :: held).countP Held.isStatement = held.countP Held.isStatement + 1 :=
  List.countP_cons_of_pos rfl

/-- The nesting depth counts the statements a thread is inside of. -/
def DepthInv (s : GateStore) : Prop :=
  ∀ th ∈ s.threads, th.depth =
    th.held.countP Held.isStatement + if th.pc.inStatement then 1 else 0

/-- The gate knows the statements that are bound. -/
structure BusyInv (s : GateStore) : Prop where
  count : ∀ conn, s.gate.busy conn = s.sum fun th => th.held.count (.statement conn)
  orphans : ∀ conn ∈ s.gate.orphans, s.gate.busy conn ≠ 0

section Statements

variable {s s' : GateStore} {t : Nat} {th th' : GateThread}

theorem DepthInv.put (h : DepthInv s) (hthreads : s'.threads = s.threads.set t th')
    (hdepth : th'.depth = th'.held.countP Held.isStatement + if th'.pc.inStatement then 1 else 0) :
    DepthInv s' := by
  intro u hu
  rcases mem_put hthreads hu with rfl | hu
  · exact hdepth
  · exact h u hu

theorem BusyInv.same (h : BusyInv s) (hth : s.threads[t]? = some th)
    (hthreads : s'.threads = s.threads.set t th') (hbusy : s'.gate.busy = s.gate.busy)
    (horphans : s'.gate.orphans = s.gate.orphans)
    (hheld : ∀ conn, th'.held.count (.statement conn) = th.held.count (.statement conn)) :
    BusyInv s' where
  count conn := by
    rw [hbusy, h.count, sum_same hth hthreads (hheld conn)]
  orphans := by
    rw [horphans, hbusy]
    exact h.orphans

/-- No statement is bound to a connection that is not busy. -/
theorem BusyInv.unbound (h : BusyInv s) {conn : Nat} (hidle : s.gate.busy conn = 0)
    {u : GateThread} (hu : u ∈ s.threads) : .statement conn ∉ u.held := by
  intro hmem
  have hle := le_sum (f := fun th => th.held.count (.statement conn)) hu
  rw [← h.count, hidle] at hle
  have hpos := List.count_pos_iff.mpr hmem
  omega

end Statements

/-! ### Where a connection is -/

/-- Still to be handed over. -/
def stock (s : GateStore) (conn : Nat) : Nat :=
  if conn ∈ s.handed then 0 else (s.shared.toList ++ s.conns).count conn

/-- Left to a statement, about to be closed, or closed. -/
def settled (s : GateStore) (conn : Nat) : Nat :=
  s.gate.orphans.count conn + s.sum (fun th => th.pc.isPending conn) + s.closes.count conn

def place (s : GateStore) (conn : Nat) : Nat :=
  s.stock conn + s.sum (fun th => th.pc.isOpened conn) + s.settled conn

/-- A connection is in one place at most. -/
structure PlaceInv (s : GateStore) : Prop where
  total : ∀ conn, s.place conn ≤ 1
  fresh : ∀ conn, s.opened ≤ conn → s.place conn = 0
  handed : ∀ conn ∈ s.handed, 1 ≤ s.settled conn

section Place

variable {s s' : GateStore} {t : Nat} {th th' : GateThread}

theorem PlaceInv.of_le (h : PlaceInv s) (hle : ∀ conn, s'.place conn ≤ s.place conn)
    (hopened : s.opened ≤ s'.opened) (hhanded : ∀ conn ∈ s'.handed, 1 ≤ s'.settled conn) :
    PlaceInv s' where
  total conn := (hle conn).trans (h.total conn)
  fresh conn hconn := by
    have hplace := hle conn
    have hold := h.fresh conn (hopened.trans hconn)
    omega
  handed := hhanded

theorem PlaceInv.same (h : PlaceInv s) (hth : s.threads[t]? = some th)
    (hthreads : s'.threads = s.threads.set t th') (horphans : s'.gate.orphans = s.gate.orphans)
    (hshared : s'.shared = s.shared) (hconns : s'.conns = s.conns) (hhanded : s'.handed = s.handed)
    (hcloses : s'.closes = s.closes) (hopened : s'.opened = s.opened)
    (hisOpened : ∀ conn, th'.pc.isOpened conn = th.pc.isOpened conn)
    (hpending : th'.pc.pending = th.pc.pending) : PlaceInv s' := by
  have hsettled : ∀ conn, s'.settled conn = s.settled conn := by
    intro conn
    rw [settled, settled, horphans, hcloses, sum_same hth hthreads]
    rw [GatePc.isPending, hpending, GatePc.isPending]
  refine h.of_le (fun conn => ?_) (Nat.le_of_eq hopened.symm) fun conn hconn => ?_
  · rw [place, place, hsettled, sum_same hth hthreads (hisOpened conn), stock, stock, hhanded,
      hshared, hconns]
  · rw [hsettled]
    exact h.handed conn (hhanded ▸ hconn)

/-- A connection that is opened, or still to be handed over, was not handed
over before. -/
theorem PlaceInv.not_handed (h : PlaceInv s) {conn : Nat} (hth : th ∈ s.threads)
    (hpc : th.pc = .opened conn) : conn ∉ s.handed := by
  intro hmem
  have hone : (1 : Nat) ≤ s.sum fun th => th.pc.isOpened conn := by
    have hle := le_sum (f := fun th => th.pc.isOpened conn) hth
    simpa [GatePc.isOpened, hpc] using hle
  have hsettled := h.handed conn hmem
  have htotal := h.total conn
  rw [place] at htotal
  omega

end Place

/-! ### The section of a close -/

/-- What a thread has still to hand over. -/
def rest (s : GateStore) : GatePc → Option (List Nat)
  | .handShared => some (s.shared.toList ++ s.conns)
  | .dropShared _ => some s.conns
  | .handing _ rest => some rest
  | _ => none

structure SectionInv (s : GateStore) : Prop where
  rest : ∀ th ∈ s.threads, ∀ conns, s.rest th.pc = some conns →
    conns.Nodup ∧ ∀ conn ∈ conns, conn ∉ s.handed ∧ conn ∈ s.shared.toList ++ s.conns
  shared : ∀ th ∈ s.threads, ∀ pending conns, th.pc = .handing pending conns → s.shared = none
  idle : (∀ th ∈ s.threads, th.pc.inSection = false) →
    ∀ conn ∈ s.shared.toList ++ s.conns, conn ∉ s.handed

theorem rest_of_inSection {s : GateStore} {pc : GatePc} {conns : List Nat}
    (h : s.rest pc = some conns) : pc.inSection = true := by
  cases pc <;> first | rfl | cases h

section Section

variable {s s' : GateStore} {t : Nat} {th th' : GateThread}

theorem not_inSection_of_put (hthreads : s'.threads = s.threads.set t th')
    (hth : s.threads[t]? = some th) (hsection : th.pc.inSection = false)
    (h : ∀ u ∈ s'.threads, u.pc.inSection = false) : ∀ u ∈ s.threads, u.pc.inSection = false := by
  intro u hu
  obtain ⟨i, hi⟩ := List.mem_iff_getElem?.mp hu
  by_cases heq : i = t
  · subst heq
    obtain rfl := Option.some.inj (hth.symm.trans hi)
    exact hsection
  · refine h u (List.mem_iff_getElem?.mpr ⟨i, ?_⟩)
    rw [hthreads, List.getElem?_set_ne (Ne.symm heq)]
    exact hi

/-- A thread that is in no section before or after its step. -/
theorem SectionInv.same (h : SectionInv s) (hth : s.threads[t]? = some th)
    (hthreads : s'.threads = s.threads.set t th') (hshared : s'.shared = s.shared)
    (hconns : s'.conns = s.conns) (hhanded : s'.handed = s.handed)
    (hsection : th.pc.inSection = false) (hsection' : th'.pc.inSection = false) :
    SectionInv s' := by
  have hrest : ∀ pc, s'.rest pc = s.rest pc := by
    intro pc
    cases pc <;> simp [GateStore.rest, hshared, hconns]
  refine ⟨fun u hu conns hr => ?_, fun u hu pending conns hpc => ?_, fun hnone => ?_⟩
  · rw [hshared, hconns, hhanded]
    rcases mem_put hthreads hu with rfl | hu
    · rw [rest_of_inSection hr] at hsection'
      cases hsection'
    · exact h.rest u hu conns ((hrest u.pc).symm.trans hr)
  · rw [hshared]
    rcases mem_put hthreads hu with rfl | hu
    · rw [hpc] at hsection'
      cases hsection'
    · exact h.shared u hu pending conns hpc
  · rw [hshared, hconns, hhanded]
    exact h.idle (not_inSection_of_put hthreads hth hsection hnone)

end Section

end GateStore

end MarkSdk
