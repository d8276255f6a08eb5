import MarkSdk.Lib.Calls
import MarkSdk.Store.FactJobs
import MarkSdk.Store.FactsMulti

/-!
Extracted candidates applied to the store.

`record_candidate` records a plain assertion through the ledger, withdraws
the value that a correction replaces, and withdraws or ends the value that a
retraction denies. It is not one transaction: each of its store calls commits
on its own. The candidates here are the single-valued ones; those flagged
previous, historical, change or multi take the paths of the timeline rules.
-/

namespace MarkSdk

open Lib

/-- A single-valued candidate, as far as the store sees it. -/
structure FactCandidate where
  subject : String
  attributeName : String
  value : String
  retract : Bool
  correction : Bool
  tags : List String

/-- What the calls made for one candidate read off the clock, and the fresh id
they get. A subject is looked up at the reading for its number of words. -/
structure Moment where
  split : Nat → Int
  current : Int
  retract : Nat → Int
  ledger : Int
  set : Int
  uuid : String

/-- One call of `record_candidate`. -/
structure RecordCall where
  agentId : String
  candidate : FactCandidate
  key : String
  validFrom : Datetime
  sourceFragmentId : Option String
  metadata : Metadata

/-- A program of calls on the fact store. -/
abbrev StoreCalls (α : Type) := Calls Db StoreError α

/-! ### Subjects that the store already knows -/

/-- `^[a-z][\w.-]*$` -/
def isRestWord (py : Python) (word : String) : Bool :=
  match word.toList with
  | [] => false
  | c :: cs => ('a' ≤ c && c ≤ 'z') && cs.all fun d => py.isWord d || d == '.' || d == '-'

def maxAttributeWords : Nat := 5

/-- The loop of `split_known`, from the longest prefix that is left. -/
def splitPrefixes (py : Python) (known : Nat → String → StoreCalls Bool) (c : FactCandidate)
    (words : List String) : Nat → StoreCalls FactCandidate
  | 0 => pure c
  | size + 1 =>
      let rest := words.drop (size + 1)
      let attributeName := joinWords (rest ++ [c.attributeName])
      if !rest.all (isRestWord py) then pure c
      else if maxAttributeWords < (pySplit attributeName).length then pure c
      else do
        let start := joinWords (words.take (size + 1))
        if ← known (size + 1) start then
          return { c with subject := start, attributeName := attributeName }
        else splitPrefixes py known c words size

/-- `split_known` with a predicate that asks the store. -/
def splitKnown (py : Python) (known : Nat → String → StoreCalls Bool) (c : FactCandidate) :
    StoreCalls FactCandidate :=
  let words := pySplit c.subject
  if words.length < 2 ∨ factKey py c.subject = factKey py "user" then pure c
  else splitPrefixes py known c words (words.length - 1)

/-- `bool(current(agent_id, subject))` -/
def knownSubject (py : Python) (now : Int) (agentId subject : String) : StoreCalls Bool :=
  Calls.read fun db => !(factCurrent py now db agentId (some subject) none).isEmpty

/-- `words[-1][:1].islower()` -/
def endsLower (py : Python) (words : List String) : Bool :=
  ((words.getLast?.bind fun word => word.toList.head?).map py.isLower).getD false

def splitOnStoreSubjects (py : Python) (m : Moment) (agentId : String) (c : FactCandidate) :
    StoreCalls FactCandidate :=
  let words := pySplit c.subject
  if words.length < 2 ∨ endsLower py words = false then pure c
  else do
    if ← knownSubject py (m.split words.length) agentId c.subject then return c
    else splitKnown py (fun size start => knownSubject py (m.split size) agentId start) c

/-! ### Withdrawals -/

/-- `_same` -/
def sameText (py : Python) (value : PyValue) (text : String) : Bool :=
  joinWords (pySplit (py.lower (pyStr py value))) == joinWords (pySplit (py.lower text))

def notNewer (fact : Fact) (when_ : Int) : Bool := fact.validFrom ≤ when_

def Fact.isMulti (fact : Fact) : Bool :=
  match fact.metadata.lookup multiKey with
  | some flag => flag.truthy
  | none => false

def deniedFact (py : Python) (c : FactCandidate) (when_ : Int) (current : List Fact) :
    Option Fact :=
  current.find? fun f => sameText py f.value c.value && notNewer f when_

def replacedFacts (py : Python) (c : FactCandidate) (when_ : Int) (current : List Fact) :
    List Fact :=
  current.filter fun f => !sameText py f.value c.value && notNewer f when_

def retractCurrent (py : Python) (m : Moment) (agentId : String) (c : FactCandidate)
    (when_ : Datetime) : StoreCalls (Option Fact) := do
  let current ← Calls.read fun db =>
    factCurrent py m.current db agentId (some c.subject) (some c.attributeName)
  match deniedFact py c (utcText when_) current with
  | none => return none
  | some fact =>
      if fact.isMulti then
        -- an added value ends here, history keeps it
        let _ ← Calls.txn (factRemove py agentId c.subject c.attributeName fact.value when_)
        return some fact
      else
        let _ ← Calls.txn
          (factRetract py (m.retract 0) agentId c.subject (some c.attributeName) fact.value)
        return some fact

def withdrawReplaced (py : Python) (m : Moment) (agentId : String) (c : FactCandidate)
    (when_ : Datetime) : StoreCalls Unit := do
  let current ← Calls.read fun db =>
    factCurrent py m.current db agentId (some c.subject) (some c.attributeName)
  Calls.forEach
    (fun p : Fact × Nat => do
      let _ ← Calls.txn
        (factRetract py (m.retract p.2) agentId c.subject (some c.attributeName) p.1.value))
    (replacedFacts py c (utcText when_) current).zipIdx

/-! ### One candidate -/

def RecordCall.rowMetadata (call : RecordCall) : Metadata :=
  let tagged :=
    if call.candidate.tags.isEmpty then call.metadata
    else call.metadata.assign "tags" (.list (call.candidate.tags.map .str))
  if call.candidate.correction then tagged.assign "correction" (.bool true) else tagged

/-- The request that is made for a candidate, once its subject is split. -/
def RecordCall.request (call : RecordCall) (c : FactCandidate) : FactRequest where
  agentId := call.agentId
  subject := c.subject
  attributeName := c.attributeName
  value := .str c.value
  validFrom := call.validFrom
  sourceFragmentId := call.sourceFragmentId
  metadata := call.rowMetadata

def recordCandidate (py : Python) (m : Moment) (call : RecordCall) : StoreCalls (Option Fact) := do
  let c ← splitOnStoreSubjects py m call.agentId call.candidate
  if c.retract then retractCurrent py m call.agentId c call.validFrom
  else
    if c.correction then withdrawReplaced py m call.agentId c call.validFrom else pure ()
    Calls.txn (factSetExtracted py m.ledger m.set m.uuid call.key (call.request c))

end MarkSdk
