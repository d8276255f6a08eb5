import MarkSdk.Lib.Captures
import MarkSdk.Security.Boundary

/-!
The date expressions that are looked for in a text (`_PATTERNS`), in their order.
-/

namespace MarkSdk

open Lib

/-- What Python knows of digits. -/
structure Numerals where
  /-- `unicodedata.decimal`; `\d` matches the characters that have one -/
  decimal : Char → Option (Fin 10)
  /-- `str.isdigit` of one character -/
  isDigit : Char → Bool

/-- The kinds of `_PATTERNS`. -/
inductive DateKind : Type
  | iso | numeric | dayMonth | monthDay | isoMonth | quarter | half | monthYear
  | month | year | ago | past | relUnit | relWd | onWd | word
  deriving DecidableEq, Repr

namespace DateKind

/-- The order of `_PATTERNS`. -/
def all : List DateKind :=
  [iso, numeric, dayMonth, monthDay, isoMonth, quarter, half, monthYear,
    month, year, ago, past, relUnit, relWd, onWd, word]

end DateKind

/-! ### Names -/

/-- `_MONTHS` -/
def monthNumbers : List (String × Nat) :=
  [("january", 1), ("february", 2), ("march", 3), ("april", 4), ("may", 5), ("june", 6),
    ("july", 7), ("august", 8), ("september", 9), ("october", 10), ("november", 11),
    ("december", 12), ("jan", 1), ("feb", 2), ("mar", 3), ("apr", 4), ("jun", 6), ("jul", 7),
    ("aug", 8), ("sep", 9), ("oct", 10), ("nov", 11), ("dec", 12), ("sept", 9)]

/-- `_WEEKDAYS` -/
def weekdayNumbers : List (String × Nat) :=
  [("monday", 0), ("tuesday", 1), ("wednesday", 2), ("thursday", 3), ("friday", 4),
    ("saturday", 5), ("sunday", 6), ("mon", 0), ("tue", 1), ("wed", 2), ("thu", 3), ("fri", 4),
    ("sat", 5), ("sun", 6)]

/-- `_ORDINALS` -/
def ordinalNumbers : List (String × Nat) :=
  [("first", 1), ("second", 2), ("third", 3), ("fourth", 4), ("1st", 1), ("2nd", 2), ("3rd", 3),
    ("4th", 4)]

def smallNumbers : List (String × Nat) := [("a", 1), ("an", 1), ("one", 1), ("two", 2), ("three", 3)]

/-- `sorted(_MONTHS, key=len, reverse=True)` -/
def monthNames : List String :=
  ["september", "february", "november", "december", "january", "october", "august", "march",
    "april", "june", "july", "sept", "may", "jan", "feb", "mar", "apr", "jun", "jul", "aug", "sep",
    "oct", "nov", "dec"]

/-- `sorted(_WEEKDAYS, key=len, reverse=True)` -/
def weekdayNames : List String :=
  ["wednesday", "thursday", "saturday", "tuesday", "monday", "friday", "sunday", "mon", "tue",
    "wed", "thu", "fri", "sat", "sun"]

def relativeWords : List String := ["last", "this", "next", "previous", "coming"]

/-! ### Patterns -/

def oneOf (words : List String) : Regex Char := .alts (words.map letters)

/-- `\s+` -/
def blanks : Regex Char := .seq (.one isSpace) (.star isSpace)

/-- `[\s-]+` -/
def dashes : Regex Char :=
  .seq (.one fun c => isSpace c || c == '-') (.star fun c => isSpace c || c == '-')

/-- A character that stands for itself in every case. -/
def sign (c : Char) : Regex Char := .one (· == c)

namespace Numerals

variable (py : Python) (nums : Numerals)

/-- `\d` -/
def digit : Regex Char := .one fun c => (nums.decimal c).isSome

/-- `\d{n}` -/
def digits : Nat → Regex Char
  | 0 => .eps
  | 1 => nums.digit
  | n + 1 => .seq nums.digit (digits n)

/-- `\d+` -/
def number : Regex Char := .seq nums.digit (.star fun c => (nums.decimal c).isSome)

def mon : List (GroupPattern Char) := [.group "mon" (oneOf monthNames), .plain (.opt (sign '.'))]

def day : List (GroupPattern Char) :=
  [.group "day" (.seq (.opt (.one fun c => '0' ≤ c && c ≤ '3')) nums.digit),
    .plain (.opt (oneOf ["st", "nd", "rd", "th"]))]

/-- `_YEAR` -/
def yearGroup : GroupPattern Char :=
  .group "year" (.seq (oneOf ["19", "20"]) (nums.digits 2))

/-- `(?:,?\s+_YEAR)?` -/
def optYear : GroupPattern Char :=
  .opt (.seqs [.plain (.opt (sign ',')), .plain blanks, nums.yearGroup])

def wd : GroupPattern Char := .group "wd" (oneOf weekdayNames)

def unit : List (GroupPattern Char) :=
  [.group "unit" (oneOf ["day", "week", "month", "quarter", "year"]), .plain (.opt (letters "s"))]

/-- A word character, a dot, a slash or a dash. -/
def inToken (c : Char) : Bool := py.isWord c || c == '.' || c == '/' || c == '-'

def edge : GroupPattern Char := .plain .edge

/-- `_PATTERNS` -/
def pattern : DateKind → GroupPattern Char
  | .iso =>
      .seqs [edge, .group "y" (nums.digits 4), .plain (sign '-'), .group "m" (nums.digits 2),
        .plain (sign '-'), .group "d" (nums.digits 2), edge]
  | .numeric =>
      .seqs [.notBehind (inToken py), .group "a" (.seq nums.digit (.opt nums.digit)),
        .plain (.one (among ['/', '.'])), .group "b" (.seq nums.digit (.opt nums.digit)),
        .plain (.one (among ['/', '.'])), .group "y" (.alt (nums.digits 4) (nums.digits 2)),
        .notAhead (.alt (.one (inToken py)) (.seq (sign '.') nums.digit))]
  | .dayMonth =>
      .seqs ([edge] ++ nums.day ++ [.plain (.opt (.seq blanks (letters "of"))), .plain blanks] ++
        mon ++ [nums.optYear, edge])
  | .monthDay =>
      .seqs ([edge] ++ mon ++ [.plain blanks] ++ nums.day ++
        [.notAhead (.alt nums.digit (sign ':')), nums.optYear, edge])
  | .isoMonth =>
      .seqs [edge, .group "y" (nums.digits 4), .plain (sign '-'), .group "m" (nums.digits 2), edge,
        .notAhead (.seq (sign '-') nums.digit)]
  | .quarter =>
      .seqs [edge,
        .alt (.seqs [.plain (letters "Q"), .group "q" (.one fun c => '1' ≤ c && c ≤ '4')])
          (.seqs [.group "qw" (oneOf (ordinalNumbers.map Prod.fst)), .plain dashes,
            .plain (letters "quarter")]),
        .opt (.seqs [.plain blanks, .plain (.opt (.seq (letters "of") blanks)), nums.yearGroup]),
        edge]
  | .half =>
      .seqs [edge, .plain (sign 'H'), .group "h" (.one (among ['1', '2'])), .plain (.star isSpace),
        .opt nums.yearGroup, edge]
  | .monthYear => .seqs ([edge] ++ mon ++ [.plain blanks, nums.yearGroup, edge])
  | .month =>
      .seqs ([edge, .plain (oneOf ["in", "during", "since", "until", "by", "early", "late", "mid",
        "of", "last", "next", "this"]), .plain dashes] ++ mon ++ [.notAhead (.one py.isWord)])
  | .year =>
      .seqs [edge, .plain (oneOf ["in", "during", "since", "until", "by"]), .plain blanks,
        nums.yearGroup, edge]
  | .ago =>
      .seqs ([edge, .group "n" (.alt nums.number (oneOf (smallNumbers.map Prod.fst))),
        .plain blanks] ++ unit ++ [.plain blanks, .plain (letters "ago"), edge])
  | .past =>
      .seqs ([edge, .plain (oneOf ["past", "last"]), .plain blanks, .group "n" nums.number,
        .plain blanks] ++ unit ++ [edge])
  | .relUnit => .seqs ([edge, .group "rel" (oneOf relativeWords), .plain blanks] ++ unit ++ [edge])
  | .relWd => .seqs [edge, .group "rel" (oneOf relativeWords), .plain blanks, wd, edge]
  | .onWd => .seqs [edge, .plain (oneOf ["on", "since", "by"]), .plain blanks, wd, edge]
  | .word => .seqs [edge, .group "w" (oneOf ["today", "yesterday", "tomorrow", "tonight"]), edge]

end Numerals

/-! ### What a pattern needs -/

/-- The keys of `_NEED_WORDS`, and `digit`. -/
inductive DateNeed : Type
  | digit | month | weekday | unit | quarter | half | word
  deriving DecidableEq, Repr

/-- `_NEED_WORDS` -/
def DateNeed.words : DateNeed → List String
  | .digit => []
  | .month => monthNumbers.map Prod.fst
  | .weekday => weekdayNumbers.map Prod.fst
  | .unit =>
      ["day", "days", "week", "weeks", "month", "months", "quarter", "quarters", "year", "years"]
  | .quarter => ["q1", "q2", "q3", "q4", "quarter"]
  | .half => ["h1", "h2"]
  | .word => ["today", "yesterday", "tomorrow", "tonight"]

def DateKind.needs : DateKind → List DateNeed
  | .iso | .numeric | .isoMonth | .year => [.digit]
  | .dayMonth | .monthDay | .monthYear => [.digit, .month]
  | .quarter => [.quarter]
  | .half => [.half]
  | .month => [.month]
  | .ago | .relUnit => [.unit]
  | .past => [.digit, .unit]
  | .relWd | .onWd => [.weekday]
  | .word => [.word]

end MarkSdk
