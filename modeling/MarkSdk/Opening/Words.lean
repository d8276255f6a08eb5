import MarkSdk.Store.Values

/-!
The text of a memory as the multilingual index holds it.

Text that is plain ASCII is not in this index. In other text every run of CJK
characters becomes its overlapping pairs, each symbol stands alone, and the
single characters follow at the end.
-/

namespace MarkSdk

/-- `text.isascii()` -/
def isAsciiText (text : List Char) : Bool := text.all fun c => c.toNat < 128

def symbolNoise (c : Char) : Bool :=
  [0xfe0e, 0xfe0f, 0x200d].contains c.toNat || (0x1f3fb ≤ c.toNat && c.toNat < 0x1f400)

/-- `CJK_CLASS` -/
def isCjk (c : Char) : Bool :=
  [(0x3040, 0x30ff), (0x3400, 0x4dbf), (0x4e00, 0x9fff), (0xf900, 0xfaff), (0xac00, 0xd7af),
    (0x1100, 0x11ff), (0x3130, 0x318f)].any fun range => range.1 ≤ c.toNat && c.toNat ≤ range.2

/-- `_ASCII_SYMBOLS` -/
def blankSymbol (c : Char) : Char :=
  if "$+<=>^|~".toList.contains c || c.toNat = 96 then ' ' else c

def cjkBigrams (run : List Char) : List (List Char) :=
  (List.range (max 1 (run.length - 1))).map fun i => (run.drop i).take 2

/-- `" ".join(words)` -/
def joinChars (words : List (List Char)) : List Char := ([' '] : List Char).intercalate words

/-- The text in runs of CJK characters and of others. -/
def cjkPieces (text : List Char) : List (List Char) := text.splitBy fun a b => isCjk a == isCjk b

/-- `CJK_RUN.findall(text)` -/
def cjkRuns (text : List Char) : List (List Char) :=
  (cjkPieces text).filter fun piece => piece.all isCjk

section Symbols

-- `unicodedata.category(char).startswith("S")`
variable (symbol : Char → Bool)

def isSymbol (c : Char) : Bool := 127 < c.toNat && !symbolNoise c && symbol c

def spacedSymbols (text : List Char) : List Char :=
  if isAsciiText text then text
  else (text.map blankSymbol).flatMap fun c =>
    if isSymbol symbol c then [' ', c, ' '] else if symbolNoise c then [' '] else [c]

def multilingualIndexText (text : String) : Option String :=
  if isAsciiText text.toList then none
  else
    let spaced := spacedSymbols symbol text.toList
    let prepared := (cjkPieces spaced).flatMap fun piece =>
      if piece.all isCjk then ' ' :: joinChars (cjkBigrams piece) ++ [' '] else piece
    let singles := (cjkRuns spaced).flatten
    if !singles.isEmpty && (cjkRuns text.toList).any fun run => 1 < run.length then
      some (String.ofList (prepared ++ ' ' :: joinChars (singles.eraseDups.map fun c => [c])))
    else some (String.ofList prepared)

end Symbols

/-- The word "Shanghai warehouse" in pairs and then in single characters. -/
example : multilingualIndexText (fun _ => false) "上海仓库" =
    some " 上海 海仓 仓库  上 海 仓 库" := by decide +kernel

end MarkSdk
