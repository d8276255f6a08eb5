import Mathlib.Data.Prod.Lex
import MarkSdk.Lib.Calendar
import MarkSdk.Lib.SortedBy
import MarkSdk.Retrieval.DatePatterns

/-!
Date expressions resolved to calendar ranges (`find_dates`), and the ranges that
a query names (`query_date_ranges`).
-/

namespace MarkSdk

open Lib

inductive DateError : Type
  | valueError
  | overflowError
  | keyError
  /-- `int(None)` -/
  | typeError
  /-- `None.lower()` -/
  | attributeError
  deriving DecidableEq, Repr

/-- A date expression: inclusive calendar range plus where it occurs in the text. -/
structure DateSpan : Type where
  start : Date
  finish : Date
  text : List Char
  pos : Nat × Nat
  deriving DecidableEq

abbrev DateRange : Type := Date × Date

namespace DateParsing

/-! ### Dates of Python -/

/-- `date(year, month, day)`, with a C `int` for the year. -/
def mkDate (year : Int) (month day : Nat) : Except DateError Date :=
  if year < -2 ^ 31 ∨ 2 ^ 31 ≤ year then .error .overflowError
  else if h : (1 ≤ year.toNat ∧ year.toNat ≤ 9999) ∧ (1 ≤ month ∧ month ≤ 12) ∧
      1 ≤ day ∧ day ≤ monthDays year.toNat month then
    .ok ⟨year.toNat, month, day, h.1, h.2.1, h.2.2⟩
  else .error .valueError

/-- `d + timedelta(days=n)` -/
def plusDays (d : Date) (n : Int) : Except DateError Date :=
  if 999999999 < n.natAbs then .error .overflowError
  else if h : 1 ≤ (d.ordinal + n).toNat ∧ (d.ordinal + n).toNat ≤ maxOrdinal then
    .ok (Date.ofOrdinal (d.ordinal + n).toNat h)
  else .error .overflowError

section Reading

variable (py : Python) (nums : Numerals) (m : Match Char)

/-- `int(s)` of a text of digits, of which Python converts 4300. -/
def readInt (s : List Char) : Except DateError Nat :=
  match s.mapM nums.decimal with
  | none => .error .valueError
  | some [] => .error .valueError
  | some digits =>
      if digits.length ≤ 4300 then .ok (digits.foldl (fun n d => 10 * n + d.val) 0)
      else .error .valueError

/-- `int(m[name])` -/
def intGroup (name : String) : Except DateError Nat :=
  match m.group name with
  | none => .error .typeError
  | some s => readInt nums s

/-- `m[name].lower()` -/
def lowerGroup (name : String) : Except DateError String :=
  match m.group name with
  | none => .error .attributeError
  | some s => .ok (py.lower (String.ofList s))

/-- `table[key]` -/
def lookUp {α : Type} (table : List (String × α)) (key : String) : Except DateError α :=
  match table.lookup key with
  | none => .error .keyError
  | some a => .ok a

/-- `int(m["year"]) if m["year"] else ref.year` -/
def yearOrRef (ref : Date) : Except DateError Nat :=
  match m.group "year" with
  | some (c :: s) => readInt nums (c :: s)
  | _ => .ok ref.year

/-- `int(m["q"]) if m["q"] else _ORDINALS[m["qw"].lower()]` -/
def quarterGroup : Except DateError Nat :=
  match m.group "q" with
  | some (c :: s) => readInt nums (c :: s)
  | _ => do lookUp ordinalNumbers (← lowerGroup py m "qw")

/-- `_MONTHS[m["mon"].lower()]` -/
def monGroup : Except DateError Nat := do
  lookUp monthNumbers (← lowerGroup py m "mon")

/-- `m.group(0).split(None, 1)[0].lower()`; a match of `month` is not blank. -/
def lead : String := py.lower ((pySplit (String.ofList m.text)).headD "")

end Reading

/-! ### Ranges -/

/-- `_day` -/
def dayRange (day : Date) : DateRange := (day, day)

/-- `_months` -/
def monthsRange (year : Int) (month count : Nat) : Except DateError DateRange := do
  let last := month + count - 1
  let first ← mkDate year month 1
  let final ← mkDate year last (monthDays year.toNat last)
  return (first, final)

/-- `_month` -/
def monthRange (year : Int) (month : Nat) : Except DateError DateRange := monthsRange year month 1

/-- `date(year, 1, 1), date(year, 12, 31)` -/
def yearRange (year : Int) : Except DateError DateRange := do
  let first ← mkDate year 1 1
  let final ← mkDate year 12 31
  return (first, final)

def unitMonths : List (String × Int) := [("month", 1), ("quarter", 3), ("year", 12)]

/-- `_shift`. The days of a month outside of the calendar do not matter, since
there is no such date. -/
def shift (ref : Date) (unit : String) (n : Int) : Except DateError Date :=
  if unit = "day" then plusDays ref n
  else if unit = "week" then plusDays ref (7 * n)
  else do
    let months := n * (← lookUp unitMonths unit)
    let index : Int := ref.year * 12 + ref.month - 1 + months
    let year := index / 12
    let month := (index % 12).toNat + 1
    mkDate year month (min ref.day (monthDays year.toNat month))

def unitRange (day : Date) (unit : String) : Except DateError DateRange :=
  if unit = "day" then .ok (dayRange day)
  else if unit = "week" then do
    let start ← plusDays day (-day.weekday)
    let final ← plusDays start 6
    return (start, final)
  else if unit = "month" then monthRange day.year day.month
  else if unit = "quarter" then monthsRange day.year (3 * ((day.month - 1) / 3) + 1) 3
  else yearRange day.year

/-! ### Resolving -/

section Resolve

variable (py : Python) (nums : Numerals) (m : Match Char) (ref : Date) (dayFirst : Bool)

/-- `int(raw) if raw.isdigit() else _SMALL_NUMBERS[raw]`, `raw` being `m["n"].lower()` -/
def amount : Except DateError Nat := do
  let raw ← lowerGroup py m "n"
  if !raw.toList.isEmpty && raw.toList.all nums.isDigit then readInt nums raw.toList
  else lookUp smallNumbers raw

/-- The day of the week `target` that is meant. -/
def weekdayNear (target : Nat) (rel : String) : Except DateError Date :=
  if rel = "last" ∨ rel = "previous" then
    plusDays ref (-(((ref.weekday : Int) - target - 1) % 7 + 1))
  else if rel = "next" ∨ rel = "coming" then
    plusDays ref (((target : Int) - ref.weekday - 1) % 7 + 1)
  else do
    let monday ← plusDays ref (-ref.weekday)
    plusDays monday target

def wordOffsets : List (String × Int) :=
  [("today", 0), ("tonight", 0), ("yesterday", -1), ("tomorrow", 1)]

def relativeSteps : List (String × Int) :=
  [("last", -1), ("previous", -1), ("this", 0), ("next", 1), ("coming", 1)]

/-- The branches of `_resolve_relative`. -/
def relativeRange : DateKind → Option (Except DateError DateRange)
  | .word => some do
      let offset ← lookUp wordOffsets (← lowerGroup py m "w")
      return dayRange (← plusDays ref offset)
  | .ago => some do
      let n ← amount py nums m
      let unit ← lowerGroup py m "unit"
      let start ← shift ref unit (-n)
      unitRange start unit
  | .past => some do
      let n ← amount py nums m
      let unit ← lowerGroup py m "unit"
      let start ← shift ref unit (-n)
      return (start, ref)
  | .relUnit => some do
      let step ← lookUp relativeSteps (← lowerGroup py m "rel")
      let unit ← lowerGroup py m "unit"
      let day ← shift ref unit step
      unitRange day unit
  | .relWd => some do
      let target ← lookUp weekdayNumbers (← lowerGroup py m "wd")
      let rel ← lowerGroup py m "rel"
      return dayRange (← weekdayNear ref target rel)
  | .onWd => some do
      let target ← lookUp weekdayNumbers (← lowerGroup py m "wd")
      return dayRange (← weekdayNear ref target "this")
  | _ => none

def resolveRelative (kind : DateKind) : Except DateError (Option DateRange) :=
  match relativeRange py nums m ref kind with
  | some range => range.map some
  | none => .ok none

/-- `except ValueError: return None` -/
def orNone (range : Except DateError DateRange) : Except DateError (Option DateRange) :=
  match range with
  | .ok r => .ok (some r)
  | .error .valueError => .ok none
  | .error e => .error e

/-- The day and the month of a numeric date. -/
def dayAndMonth (a b : Nat) : Nat × Nat :=
  if a > 12 ∨ dayFirst = true ∧ b ≤ 12 then (a, b) else (b, a)

/-- The year of a bare month name: "last December" is the latest one before this
month, "next March" the coming one. -/
def leadYear (month : Nat) : Int :=
  if lead py m = "last" then ref.year - if ref.month ≤ month then 1 else 0
  else if lead py m = "next" then ref.year + if month ≤ ref.month then 1 else 0
  else ref.year

/-- What stands under `try` in `_resolve`. -/
def resolveWritten : DateKind → Option (Except DateError DateRange)
  | .iso => some do
      let year ← intGroup nums m "y"
      let month ← intGroup nums m "m"
      return dayRange (← mkDate year month (← intGroup nums m "d"))
  | .numeric => some do
      let a ← intGroup nums m "a"
      let b ← intGroup nums m "b"
      let y ← intGroup nums m "y"
      let year := if y < 100 then y + 2000 else y
      return dayRange (← mkDate year (dayAndMonth dayFirst a b).2 (dayAndMonth dayFirst a b).1)
  | .dayMonth | .monthDay => some do
      let year ← yearOrRef nums m ref
      let month ← monGroup py m
      return dayRange (← mkDate year month (← intGroup nums m "day"))
  | .isoMonth => some do
      let year ← intGroup nums m "y"
      monthRange year (← intGroup nums m "m")
  | .monthYear => some do
      let year ← intGroup nums m "year"
      monthRange year (← monGroup py m)
  | .month => some do
      let month ← monGroup py m
      monthRange (leadYear py m ref month) month
  | .year => some do
      yearRange (← intGroup nums m "year")
  | .quarter => some do
      let q ← quarterGroup py nums m
      monthsRange (← yearOrRef nums m ref) (3 * q - 2) 3
  | .half => some do
      let year ← yearOrRef nums m ref
      monthsRange year (6 * (← intGroup nums m "h") - 5) 6
  | _ => none

def resolve (kind : DateKind) : Except DateError (Option DateRange) :=
  match resolveWritten py nums m ref dayFirst kind with
  | some range => orNone range
  | none => resolveRelative py nums m ref kind

end Resolve

/-! ### Finding -/

section Find

variable (py : Python) (nums : Numerals) (text : String) (ref : Date) (dayFirst : Bool)

/-- `[a-z0-9]` -/
def isPlain (c : Char) : Bool := ('a' ≤ c && c ≤ 'z') || ('0' ≤ c && c ≤ '9')

/-- `_WORD_RE.findall(text.lower())` -/
def plainWords : List String :=
  (((py.lower text).toList.splitOnP fun c => !isPlain c).filter fun w => !w.isEmpty).map
    String.ofList

/-- `present[need]` -/
def present (need : DateNeed) : Bool :=
  match need with
  | .digit => text.toList.any nums.isDigit
  | need => need.words.any fun w => (plainWords py text).contains w

/-- `pattern.finditer(text)` -/
def matchesOf (kind : DateKind) : List (Match Char) :=
  (nums.pattern py kind).finditer py.isWord 0 none 0 text.toList

/-- The lists `taken` and `spans`. -/
structure DateScan : Type where
  taken : List (Nat × Nat)
  spans : List DateSpan

/-- One match in the loop of `find_dates`. -/
def tryMatch (kind : DateKind) (scan : DateScan) (m : Match Char) : Except DateError DateScan :=
  if ∃ t ∈ scan.taken, m.start < t.2 ∧ t.1 < m.stop then .ok scan
  else do
    match ← resolve py nums m ref dayFirst kind with
    | none => return scan
    | some range =>
        return ⟨scan.taken ++ [(m.start, m.stop)],
          scan.spans ++ [⟨range.1, range.2, m.text, (m.start, m.stop)⟩]⟩

/-- The matches of one pattern. -/
def tryKind (scan : DateScan) (kind : DateKind) : Except DateError DateScan :=
  if kind.needs.all (present py nums text) then
    (matchesOf py nums text kind).foldlM (tryMatch py nums ref dayFirst kind) scan
  else .ok scan

/-- `find_dates`, for a reference that is a date already (`as_date`) -/
def findDates : Except DateError (List DateSpan) := do
  let scan ← DateKind.all.foldlM (tryKind py nums text ref dayFirst) ⟨[], []⟩
  return sortedBy (fun span => toLex span.pos) scan.spans

/-- `stripped[: pos[0]] + " " + stripped[pos[1]:]` -/
def cutSpan (span : DateSpan) (stripped : List Char) : List Char :=
  stripped.take span.pos.1 ++ ' ' :: stripped.drop span.pos.2

/-- `query_date_ranges`, with the day of `now` -/
def queryDateRanges : Except DateError (List DateRange × List Char) := do
  let spans ← findDates py nums text ref true
  return (spans.map fun span => (span.start, span.finish), spans.foldr cutSpan text.toList)

end Find

end DateParsing

end MarkSdk
