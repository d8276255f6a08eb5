import MarkSdk.Lib.LockFile

/-!
`mark serve` and its lock file.

A call of `serve` takes the lock of its database, opens the engine, publishes
its address and token in the state file, serves, and takes both files away
again. A store that has to be migrated looks at the lock file too
(`foreign_server`). Any number of these calls run side by side, in one
process or in several, and each of them may be killed between two of its
system calls: then the system closes its descriptor.

A step is one system call of one call. An error that ends a process is a kill.
-/

namespace MarkSdk

open Lib

/-- What a server writes into its state file. -/
structure ServerState where
  host : String
  port : Nat
  token : String
  pid : Nat
  db : String
  deriving DecidableEq

/-- How a call has ended. -/
inductive ServeEnd : Type
  /-- `a MARK server (pid ..) is already running` -/
  | alreadyRunning (owner : Option Nat)
  /-- `an older MARK server (pid ..) is running` -/
  | olderServer (pid : Nat)
  /-- `could not acquire the server lock` -/
  | notAcquired
  /-- the engine did not open -/
  | noEngine
  | stopped
  /-- what `foreign_server` has returned -/
  | probed (held : Bool) (pid : Option Nat)
  | killed
  deriving DecidableEq

inductive ServePc : Type
  /-- not called yet -/
  | idle
  /-- at the head of the loop in `_acquire_lock`, with so many rounds left -/
  | trying (left : Nat)
  /-- behind `os.open` -/
  | opened (left : Nat)
  /-- in the handler of `_lock_fd`, before `os.close` -/
  | refused
  /-- behind `_lock_fd` -/
  | locked (left : Nat)
  /-- with the lock of a file that is not at the path -/
  | stale (left : Nat)
  /-- in `_refuse_legacy_server` -/
  | same
  /-- an older server was found -/
  | older (pid : Nat)
  /-- before `os.ftruncate` -/
  | passed
  /-- before `os.write` -/
  | truncated
  /-- behind `_acquire_lock` -/
  | holding
  /-- before `_write_state` -/
  | ready
  /-- in `_write_state`, with the new file still empty -/
  | writing
  /-- in `_write_state`, before `os.replace` -/
  | written
  | serving
  /-- behind `engine.close()` -/
  | closed
  /-- before `state.unlink()` -/
  | ours
  /-- in `_release_lock`, before the lock file is removed -/
  | releasing (outcome : ServeEnd)
  /-- in `_release_lock`, before the descriptor is closed -/
  | removed (outcome : ServeEnd)
  /-- in `foreign_server`, behind `os.open` -/
  | probing
  /-- in `foreign_server`, before `os.close` -/
  | probeRefused
  /-- in `foreign_server`, behind `_try_lock` -/
  | probeLocked
  /-- in `foreign_server`, behind `_unlock` -/
  | probeUnlocked
  /-- in `foreign_server`, before `legacy_server` -/
  | probeFree
  | done (outcome : ServeEnd)
  deriving DecidableEq

/-- From the test that the locked file is at the path until its removal. -/
def ServePc.holds : ServePc → Bool
  | .same | .older _ | .passed | .truncated | .holding | .ready | .writing | .written | .serving
  | .closed | .ours | .releasing _ => true
  | _ => false

/-- From the replacement of the state file until its removal. -/
def ServePc.published : ServePc → Bool
  | .serving | .closed | .ours => true
  | _ => false

/-- The calls and the files beside the database. -/
structure ServeHost where
  pc : Nat → ServePc := fun _ => .idle
  lock : LockFile Nat Nat := {}
  /-- `X.db.server.json`, without a content if only a part of it is there -/
  state : Option (Option ServerState) := none
  /-- `X.db.server.json.<pid>.tmp` -/
  tmp : Nat → Option (Option ServerState) := fun _ => none
  /-- the calls that have removed the lock file, the last one first -/
  removals : List Nat := []

inductive ServeAction : Type
  /-- the call of `serve` -/
  | serve
  /-- the call of `foreign_server` -/
  | probe
  /-- `os.open`, with the number that a new file would get -/
  | create (inode : Nat)
  /-- what `legacy_server` answers -/
  | legacy (pid : Option Nat)
  /-- a call that may fail -/
  | attempt (ok : Bool)
  /-- any other step -/
  | next
  | kill
  deriving DecidableEq

/-- What `legacy_server` asks of the system. -/
structure LegacyHost where
  /-- `_live_mark_process` of the pid of another process -/
  alive : Nat → Bool
  /-- `_answers_hello` -/
  answersHello : ServerState → Bool

namespace ServeHost

def goto (s : ServeHost) (a : Nat) (pc : ServePc) : ServeHost :=
  { s with pc := Function.update s.pc a pc }

/-- `os.close`, and on to the next place. -/
def closing (s : ServeHost) (a : Nat) (pc : ServePc) : ServeHost :=
  { s.goto a pc with lock := s.lock.close a }

/-- `json.loads(state.read_text()).get("token") == token`; neither a missing
file nor a part of one has a token. -/
def tokenIsOurs (s : ServeHost) (token : String) : Bool :=
  match s.state with
  | some (some data) => data.token = token
  | _ => false

variable (calls : Nat → ServerState)

/-- The next system call of the call `a`; nothing if the action is not one that
it can take where it is. -/
def advance (s : ServeHost) (a : Nat) (act : ServeAction) : ServeHost :=
  match s.pc a, act with
  | .done _, _ => s
  | _, .kill => s.closing a (.done .killed)
  -- `_acquire_lock`
  | .idle, .serve => s.goto a (.trying 3)
  | .trying 0, .next => s.goto a (.done .notAcquired)
  | .trying (left + 1), .create inode =>
      match s.lock.create a inode with
      | none => s
      | some lock => { s.goto a (.opened left) with lock }
  | .opened left, .next =>
      match s.lock.tryLock a with
      | none => s.goto a .refused
      | some lock => { s.goto a (.locked left) with lock }
  | .refused, .next => s.closing a (.done (.alreadyRunning (s.lock.read a)))
  | .locked left, .next => s.goto a (if s.lock.atPath a then .same else .stale left)
  | .stale left, .next => s.closing a (.trying left)
  | .same, .legacy none => s.goto a .passed
  | .same, .legacy (some pid) => s.goto a (.older pid)
  | .older pid, .next => s.closing a (.done (.olderServer pid))
  | .passed, .next => { s.goto a .truncated with lock := s.lock.write a none }
  | .truncated, .next => { s.goto a .holding with lock := s.lock.write a (some (calls a).pid) }
  -- `serve`
  | .holding, .attempt ok => s.goto a (if ok then .ready else .releasing .noEngine)
  | .ready, .next => { s.goto a .writing with tmp := Function.update s.tmp (calls a).pid (some none) }
  | .writing, .next =>
      { s.goto a .written with tmp := Function.update s.tmp (calls a).pid (some (some (calls a))) }
  | .written, .next =>
      match s.tmp (calls a).pid with
      | none => s.closing a (.done .killed)
      | some content =>
          { s.goto a .serving with
            state := some content
            tmp := Function.update s.tmp (calls a).pid none }
  | .serving, .next => s.goto a .closed
  | .closed, .attempt ok =>
      s.goto a (if ok && s.tokenIsOurs (calls a).token then .ours else .releasing .stopped)
  | .ours, .attempt ok =>
      { s.goto a (.releasing .stopped) with state := if ok then none else s.state }
  -- `_release_lock`
  | .releasing outcome, .attempt true =>
      { s.goto a (.removed outcome) with
        lock := s.lock.unlink
        removals := a :: s.removals }
  | .releasing outcome, .attempt false => s.goto a (.removed outcome)
  | .removed outcome, .next => s.closing a (.done outcome)
  -- `foreign_server`
  | .idle, .probe =>
      match s.lock.open? a with
      | none => s.goto a .probeFree
      | some lock => { s.goto a .probing with lock }
  | .probing, .next =>
      match s.lock.tryLock a with
      | none => s.goto a .probeRefused
      | some lock => { s.goto a .probeLocked with lock }
  | .probeRefused, .next =>
      let pid := s.lock.read a
      s.closing a (.done (.probed (pid ≠ some (calls a).pid) pid))
  | .probeLocked, .next => { s.goto a .probeUnlocked with lock := s.lock.unlock a }
  | .probeUnlocked, .next => s.closing a .probeFree
  | .probeFree, .legacy none => s.goto a (.done (.probed false none))
  | .probeFree, .legacy (some pid) =>
      s.goto a (.done (.probed true (if pid = 0 then none else some pid)))
  | _, _ => s

def step (input : Nat × ServeAction) (s : ServeHost) : ServeHost :=
  s.advance calls input.1 input.2

/-! ### Older servers -/

def asPid (pid : Option Nat) : Option Nat := pid.filter fun n => 0 < n

/-- `_read_pid_file` of the lock file -/
def lockPid (s : ServeHost) : Option Nat := asPid (s.lock.entry.bind s.lock.content)

/-- `_read_state`: neither a missing file nor a part of one has entries. -/
def readState (s : ServeHost) : Option ServerState := s.state.join

/-- `legacy_server`, called by a process with the pid `own` -/
def legacyServer (s : ServeHost) (os : LegacyHost) (own : Nat) : Option Nat :=
  let statePid := asPid (s.readState.map ServerState.pid)
  match (s.lockPid.toList ++ statePid.toList).find? fun pid => pid ≠ own && os.alive pid with
  | some pid => some pid
  | none =>
      match s.readState with
      | some data =>
          if statePid ≠ some own && os.answersHello data then some (statePid.getD 0) else none
      | none => none

/-- What `legacy_server` answers is what it finds. -/
def LegacyRight (os : LegacyHost) (input : Nat × ServeAction) (s : ServeHost) : Prop :=
  ∀ pid, input.2 = .legacy pid → pid = s.legacyServer os (calls input.1).pid

/-- No other process that looks like MARK has a pid that the files name, and
nobody answers for the server of the state file. -/
structure Abandoned (s : ServeHost) (os : LegacyHost) (own : Nat) : Prop where
  lock : ∀ pid, s.lockPid = some pid → pid ≠ own → os.alive pid = false
  state : ∀ data, s.readState = some data → data.pid ≠ own → os.alive data.pid = false
  hello : ∀ data, s.readState = some data → asPid (some data.pid) ≠ some own →
    os.answersHello data = false

/-! ### Simplification -/

variable {s : ServeHost} {a : Nat}

@[simp] theorem goto_pc_self (pc : ServePc) : (s.goto a pc).pc a = pc := Function.update_self ..

@[simp] theorem closing_pc_self (pc : ServePc) : (s.closing a pc).pc a = pc :=
  Function.update_self ..

end ServeHost

end MarkSdk
