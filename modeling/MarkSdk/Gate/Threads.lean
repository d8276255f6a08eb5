import Mathlib.Data.List.Basic
import Mathlib.Logic.Function.Basic
import MarkSdk.Lib.Runs

/-!
Closing a store while other threads run statements on it.

Every statement enters the gate, gets its thread's connection, tells the gate
which one it is, and leaves. A close shuts the gate, waits for a while and
then closes each connection that no statement has told the gate about. The
others are left to the last of their statements.

A step is what one thread does between two points where others may run.
-/

namespace MarkSdk

/-! ### The gate -/

structure StatementGate where
  closing : Bool := false
  active : Nat := 0
  /-- The running statements of a connection; none for one that is not in `_busy`. -/
  busy : Nat → Nat := fun _ => 0
  orphans : List Nat := []

namespace StatementGate

/-- Nothing for a `StoreClosedError`. -/
def enter (g : StatementGate) (depth : Nat) : Option StatementGate :=
  if g.closing ∧ depth = 0 then none else some { g with active := g.active + 1 }

def bind (g : StatementGate) (conn : Nat) : StatementGate :=
  { g with busy := Function.update g.busy conn (g.busy conn + 1) }

/-- The gate, with the orphan that the last statement of a connection closes. -/
def leave (g : StatementGate) (conn : Option Nat) : StatementGate × Option Nat :=
  let g := { g with active := g.active - 1 }
  match conn with
  | none => (g, none)
  | some conn =>
      if g.busy conn = 0 then (g, none)
      else if g.busy conn = 1 then
        ({ g with
            busy := Function.update g.busy conn 0
            orphans := g.orphans.erase conn },
          if conn ∈ g.orphans then some conn else none)
      else ({ g with busy := Function.update g.busy conn (g.busy conn - 1) }, none)

def beginClose (g : StatementGate) : StatementGate := { g with closing := true }

/-- The gate, with the connection if it is to be closed now. -/
def closeOrOrphan (g : StatementGate) (conn : Nat) : StatementGate × Option Nat :=
  if g.busy conn ≠ 0 then
    ({ g with orphans := if conn ∈ g.orphans then g.orphans else conn :: g.orphans }, none)
  else (g, some conn)

end StatementGate

/-! ### Threads -/

/-- What a thread is inside of: the store's lock, or a statement that is bound
to its connection. -/
inductive Held : Type
  | lock
  | statement (conn : Nat)
  deriving DecidableEq

/-- Where a thread is. -/
inductive GatePc : Type
  /-- in the code of its caller -/
  | caller
  /-- behind `gate.enter` -/
  | entered
  /-- in `_conn`, behind the test of `_closed` -/
  | checked
  /-- in `_conn`, with a new connection -/
  | opened (conn : Nat)
  /-- behind `conn = self._conn()` -/
  | got (conn : Nat)
  /-- in `leave`, before `_close_quietly` -/
  | leaving (conn : Nat)
  /-- in `begin_close` -/
  | waiting
  /-- behind `begin_close` -/
  | waited
  /-- in `close`, with the lock, before the shared connection -/
  | handShared
  /-- the shared connection is handed over, and perhaps still to be closed -/
  | dropShared (pending : Option Nat)
  /-- in the loop over `_conns`, with the rest of them -/
  | handing (pending : Option Nat) (rest : List Nat)
  deriving DecidableEq

structure GateThread where
  held : List Held := []
  pc : GatePc := .caller
  /-- `_local.depth` of the gate -/
  depth : Nat := 0
  /-- `_local.conn` and `_local.generation` of the store -/
  handle : Option (Nat × Nat) := none

structure GateStore where
  threads : List GateThread
  isMemory : Bool
  gate : StatementGate := {}
  closed : Bool := false
  shared : Option Nat := none
  conns : List Nat := []
  generation : Nat := 0
  /-- the owner of `_lock`, and how often it has taken it -/
  lock : Option (Nat × Nat) := none
  /-- how many connections there have been -/
  opened : Nat := 0
  /-- the calls of `close_or_orphan` -/
  handed : List Nat := []
  /-- the calls of `conn.close()` -/
  closes : List Nat := []

inductive GateAction : Type
  | acquire | release | enter | check | connect | fail | register | bind | leave | closeConn
  | beginClose | endWait (timedOut : Bool) | takeOver | hand
  deriving DecidableEq

namespace GateStore

def lockFree (s : GateStore) (t : Nat) : Bool := s.lock.all fun owner => owner.1 = t

def lockTaken (s : GateStore) (t : Nat) : Option (Nat × Nat) :=
  match s.lock with
  | none => some (t, 1)
  | some (u, n) => some (u, n + 1)

def lockReleased (s : GateStore) : Option (Nat × Nat) :=
  match s.lock with
  | some (u, n + 2) => some (u, n + 1)
  | _ => none

def put (s : GateStore) (t : Nat) (th : GateThread) : GateStore :=
  { s with threads := s.threads.set t th }

/-- `finally: gate.leave(None)`, behind an exception in `_conn`. -/
def giveUp (s : GateStore) (t : Nat) (th : GateThread) : GateStore :=
  { s with gate := (s.gate.leave none).1 }.put t { th with pc := .caller, depth := th.depth - 1 }

/-- `with self._lock:` -/
def acquire (s : GateStore) (t : Nat) (th : GateThread) : GateStore :=
  if th.pc = .caller ∧ s.lockFree t then
    { s with lock := s.lockTaken t }.put t { th with held := .lock :: th.held }
  else s

def release (s : GateStore) (t : Nat) (th : GateThread) : GateStore :=
  match th.pc, th.held with
  | .caller, .lock :: held => { s with lock := s.lockReleased }.put t { th with held }
  | _, _ => s

/-- `gate.enter`; a shared connection is used under the lock only. -/
def enter (s : GateStore) (t : Nat) (th : GateThread) : GateStore :=
  if th.pc = .caller ∧ (s.shared = none ∨ th.held.head? = some .lock) then
    match s.gate.enter th.depth with
    | none => s
    | some gate => { s with gate }.put t { th with pc := .entered, depth := th.depth + 1 }
  else s

/-- The start of `_conn`. -/
def check (s : GateStore) (t : Nat) (th : GateThread) : GateStore :=
  if th.pc = .entered then
    match s.shared with
    | some conn => s.put t { th with pc := .got conn }
    | none =>
        if s.closed ∨ s.isMemory then s.giveUp t th else s.put t { th with pc := .checked }
  else s

/-- The thread's own connection, or a new one. -/
def connect (s : GateStore) (t : Nat) (th : GateThread) : GateStore :=
  if th.pc = .checked then
    match th.handle.filter fun handle => handle.2 = s.generation with
    | some handle => s.put t { th with pc := .got handle.1 }
    | none => { s with opened := s.opened + 1 }.put t { th with pc := .opened s.opened }
  else s

/-- `_open` raises. -/
def fail (s : GateStore) (t : Nat) (th : GateThread) : GateStore :=
  if th.pc = .checked then s.giveUp t th else s

/-- `with self._lock: self._conns.append(conn)`, unless the store was closed meanwhile. -/
def register (s : GateStore) (t : Nat) (th : GateThread) : GateStore :=
  match th.pc with
  | .opened conn =>
      if s.lockFree t then
        if s.closed then { s with closes := conn :: s.closes }.giveUp t th
        else
          { s with conns := s.conns ++ [conn] }.put t
            { th with pc := .got conn, handle := some (conn, s.generation) }
      else s
  | _ => s

def bind (s : GateStore) (t : Nat) (th : GateThread) : GateStore :=
  match th.pc with
  | .got conn =>
      { s with gate := s.gate.bind conn }.put t
        { th with pc := .caller, held := .statement conn :: th.held }
  | _ => s

def leave (s : GateStore) (t : Nat) (th : GateThread) : GateStore :=
  match th.pc, th.held with
  | .caller, .statement conn :: held =>
      { s with gate := (s.gate.leave (some conn)).1 }.put t
        { th with
          held
          depth := th.depth - 1
          pc := ((s.gate.leave (some conn)).2).elim .caller .leaving }
  | _, _ => s

/-- `_close_quietly` -/
def closeConn (s : GateStore) (t : Nat) (th : GateThread) : GateStore :=
  match th.pc with
  | .leaving conn => { s with closes := conn :: s.closes }.put t { th with pc := .caller }
  | .dropShared (some conn) =>
      { s with closes := conn :: s.closes }.put t { th with pc := .dropShared none }
  | .handing (some conn) rest =>
      { s with closes := conn :: s.closes }.put t { th with pc := .handing none rest }
  | _ => s

def beginClose (s : GateStore) (t : Nat) (th : GateThread) : GateStore :=
  if th.pc = .caller then
    { s with gate := s.gate.beginClose }.put t { th with pc := .waiting }
  else s

/-- The wait for the statements of other threads, which ends when its time is up. -/
def endWait (s : GateStore) (t : Nat) (th : GateThread) (timedOut : Bool) : GateStore :=
  if th.pc = .waiting ∧ (timedOut ∨ s.gate.active ≤ th.depth) then
    s.put t { th with pc := .waited }
  else s

/-- `with self._lock: self._closed = True` -/
def takeOver (s : GateStore) (t : Nat) (th : GateThread) : GateStore :=
  if th.pc = .waited ∧ s.lockFree t then
    { s with lock := s.lockTaken t, closed := true }.put t { th with pc := .handShared }
  else s

/-- `gate.close_or_orphan(conn)`, and what comes after the last one. -/
def hand (s : GateStore) (t : Nat) (th : GateThread) : GateStore :=
  match th.pc with
  | .handShared =>
      match s.shared with
      | none => s.put t { th with pc := .handing none s.conns }
      | some conn =>
          { s with
            gate := (s.gate.closeOrOrphan conn).1
            handed := conn :: s.handed }.put t
            { th with pc := .dropShared (s.gate.closeOrOrphan conn).2 }
  | .dropShared none => { s with shared := none }.put t { th with pc := .handing none s.conns }
  | .handing none (conn :: rest) =>
      { s with
        gate := (s.gate.closeOrOrphan conn).1
        handed := conn :: s.handed }.put t
        { th with pc := .handing (s.gate.closeOrOrphan conn).2 rest }
  | .handing none [] =>
      { s with conns := [], generation := s.generation + 1, lock := s.lockReleased }.put t
        { th with pc := .caller, handle := none }
  | _ => s

def act (s : GateStore) (t : Nat) (th : GateThread) : GateAction → GateStore
  | .acquire => s.acquire t th
  | .release => s.release t th
  | .enter => s.enter t th
  | .check => s.check t th
  | .connect => s.connect t th
  | .fail => s.fail t th
  | .register => s.register t th
  | .bind => s.bind t th
  | .leave => s.leave t th
  | .closeConn => s.closeConn t th
  | .beginClose => s.beginClose t th
  | .endWait timedOut => s.endWait t th timedOut
  | .takeOver => s.takeOver t th
  | .hand => s.hand t th

/-- A thread does what it is up to, if it can. -/
def step (action : Nat × GateAction) (s : GateStore) : GateStore :=
  match s.threads[action.1]? with
  | none => s
  | some th => s.act action.1 th action.2

/-- A new store, with `n` threads. -/
def start (isMemory : Bool) (n : Nat) : GateStore where
  threads := List.replicate n {}
  isMemory
  shared := if isMemory then some 0 else none
  opened := if isMemory then 1 else 0

end GateStore

/-! ### What is promised -/

namespace GatePc

/-- The connection that is about to be closed. -/
def pending : GatePc → Option Nat
  | .leaving conn => some conn
  | .dropShared pending => pending
  | .handing pending _ => pending
  | _ => none

/-- Between `gate.enter` and `gate.bind`. -/
def inStatement : GatePc → Bool
  | .entered | .checked | .opened _ | .got _ => true
  | _ => false

/-- In `close`, with the lock. -/
def inSection : GatePc → Bool
  | .handShared | .dropShared _ | .handing _ _ => true
  | _ => false

def isOpened (conn : Nat) (pc : GatePc) : Nat := if pc = .opened conn then 1 else 0

def isPending (conn : Nat) (pc : GatePc) : Nat := if pc.pending = some conn then 1 else 0

theorem isOpened_opened (c conn : Nat) :
    (GatePc.opened c).isOpened conn = if c = conn then 1 else 0 := by
  simp [isOpened]

theorem isOpened_eq_zero {pc : GatePc} (h : ∀ c, pc ≠ .opened c) (conn : Nat) :
    pc.isOpened conn = 0 := if_neg (h conn)

theorem isPending_some {pc : GatePc} {c : Nat} (h : pc.pending = some c) (conn : Nat) :
    pc.isPending conn = if c = conn then 1 else 0 := by
  simp [isPending, h]

theorem isPending_none {pc : GatePc} (h : pc.pending = none) (conn : Nat) :
    pc.isPending conn = 0 := by
  simp [isPending, h]

end GatePc

namespace GateThread

/-- The thread is in a statement that has got the connection. -/
def Uses (th : GateThread) (conn : Nat) : Prop :=
  th.pc = .got conn ∨ .statement conn ∈ th.held

def Inside (th : GateThread) : Prop :=
  th.pc.inStatement = true ∨ ∃ conn, .statement conn ∈ th.held

end GateThread

namespace GateStore

/-- The connection that an action finds unused and puts up for closing. -/
def chooses (s : GateStore) (th : GateThread) : GateAction → Option Nat
  | .leave =>
      match th.pc, th.held with
      | .caller, .statement conn :: _ => (s.gate.leave (some conn)).2
      | _, _ => none
  | .hand =>
      match th.pc with
      | .handShared => s.shared.bind fun conn => (s.gate.closeOrOrphan conn).2
      | .handing none (conn :: _) => (s.gate.closeOrOrphan conn).2
      | _ => none
  | _ => none

/-- The connection that an action gets from the store. -/
def gets (s : GateStore) (th : GateThread) : GateAction → Option Nat
  | .check => if th.pc = .entered then s.shared else none
  | .connect =>
      if th.pc = .checked then
        (th.handle.filter fun handle => handle.2 = s.generation).map Prod.fst
      else none
  | _ => none

/-- No statement has got a connection, and not told the gate, that the step
puts up for closing, and the step gets none that is put up for closing. -/
def Seen (action : Nat × GateAction) (s : GateStore) : Prop :=
  ∀ th, s.threads[action.1]? = some th →
    (∀ conn, s.chooses th action.2 = some conn → ∀ u ∈ s.threads, u.pc ≠ .got conn) ∧
      ∀ conn, s.gets th action.2 = some conn → ∀ u ∈ s.threads, u.pc.pending ≠ some conn

/-- A step closes no connection that a statement has got, and admits no thread
that is in no statement when the store is closing. -/
structure Safe (action : Nat × GateAction) (s : GateStore) : Prop where
  unused : ∀ th conn, s.threads[action.1]? = some th → action.2 = .closeConn →
    th.pc.pending = some conn → ∀ u ∈ s.threads, ¬ u.Uses conn
  refused : s.gate.closing = true → ∀ (t : Nat) (th th' : GateThread), s.threads[t]? = some th →
    (step action s).threads[t]? = some th' → ¬ th.Inside → ¬ th'.Inside

/-- A connection that was handed to a close is closed once, as soon as no
statement that is bound to it is left and no thread is about to close it. -/
def ClosedOnce (s : GateStore) : Prop :=
  ∀ conn ∈ s.handed, s.closes.count conn ≤ 1 ∧
    ((∀ th ∈ s.threads, th.pc.pending ≠ some conn ∧ .statement conn ∉ th.held) →
      s.closes.count conn = 1)

end GateStore

end MarkSdk
