import MarkSdk.Lib.Packing
import MarkSdk.Store.Values

/-!
Blocks of a document and the parts they are split into.

A block that fits the budget stays whole, and so does a code fence up to a
cap. A longer paragraph is split at sentence ends, a longer sentence at word
boundaries, and a fence over the cap at line boundaries.
-/

namespace MarkSdk.Chunking

open Lib

/-! ### Tokens and fences -/

/-- `_TOKEN`: words, and the other characters that are no blanks. -/
def tokensFrom (word : Char → Bool) : Bool → List Char → Nat
  | _, [] => 0
  | inWord, c :: s =>
      if word c then (if inWord then 0 else 1) + tokensFrom word true s
      else (if isSpace c then 0 else 1) + tokensFrom word false s

def estimateTokens (word : Char → Bool) (text : List Char) : Nat := tokensFrom word false text

/-- `_FENCE`: the backticks or tildes behind at most three blanks. -/
def fenceMark (line : List Char) : Option (List Char) :=
  let rest := line.dropWhile isSpace
  let backticks := rest.takeWhile fun c => c = '\x60'
  let tildes := rest.takeWhile fun c => c = '~'
  if rest.length + 3 < line.length then none
  else if 3 ≤ backticks.length then some backticks
  else if 3 ≤ tildes.length then some tildes
  else none

def isFence (line : List Char) : Bool := (fenceMark line).isSome

/-! ### Sentences, words and lines -/

def isStop (c : Char) : Bool := ['.', '!', '?'].contains c

def isOpening (c : Char) : Bool := ['\x22', '\x27', '(', '['].contains c

/-- `[A-Z0-9]` -/
def isCapital (c : Char) : Bool :=
  (65 ≤ c.toNat && c.toNat ≤ 90) || (48 ≤ c.toNat && c.toNat ≤ 57)

/-- What a sentence begins with: `["'(\[]?[A-Z0-9]`. -/
def startsSentence : List Char → Bool
  | [] => false
  | c :: s => isCapital c || (isOpening c && s.head?.any isCapital)

/-- `_SENTENCE_END.split`: the blanks between a stop and the beginning of a
sentence go. -/
def sentencesFrom (skipping : Bool) (before : Option Char) (sentence : List Char) :
    List Char → List (List Char)
  | [] => [sentence.reverse]
  | c :: s =>
      if skipping && isSpace c then sentencesFrom true none sentence s
      else if isSpace c && before.any isStop && startsSentence (s.dropWhile isSpace) then
        sentence.reverse :: sentencesFrom true none [] s
      else sentencesFrom false (some c) (c :: sentence) s

def sentences (block : List Char) : List (List Char) := sentencesFrom false none [] block

/-- `str.split()` -/
def words (text : List Char) : List (List Char) := MarkSdk.splitWords text []

/-- `" ".join` -/
def unwords (ws : List (List Char)) : List Char := [' '].intercalate ws

/-- `"\n".join` -/
def unlines (lines : List (List Char)) : List Char := ['\n'].intercalate lines

/-- `str.split("\n")`, with the line being read on the side. -/
def linesFrom (line : List Char) : List Char → List (List Char)
  | [] => [line.reverse]
  | c :: s => if c = '\n' then line.reverse :: linesFrom [] s else linesFrom (c :: line) s

def lines (text : List Char) : List (List Char) := linesFrom [] text

section

variable (word : Char → Bool)

def splitWords (text : List Char) (budget : Int) : List (List Char) :=
  (filling (fun ws w => decide (budget < estimateTokens word (unwords (ws ++ [w])))) (words text)).map
    unwords

/-- The lines of an oversized fence that are kept. -/
def fenceBody (block : List Char) : List (List Char) :=
  ((lines block).drop 1).filter fun line => ! isFence line

inductive ChunkError : Type
  | valueError (message : String)
  | indexError
  | attributeError
  deriving DecidableEq, Repr

/-- `_split_lines`: each part is fenced again. -/
def splitLines (block : List Char) (cap : Int) : Except ChunkError (List (List Char)) :=
  let opener := (lines block).headD []
  match fenceMark opener with
  | none => .error .attributeError
  | some marker => .ok ((filling (fun ls line =>
      decide (cap < estimateTokens word (unlines (ls ++ [line])))) (fenceBody block)).map fun ls =>
        unlines (opener :: ls ++ [marker]))

/-- `max(budget * 8, 2000)` -/
def fenceCap (budget : Int) : Int := max (budget * 8) 2000

def splitBlock (block : List Char) (budget : Int) : Except ChunkError (List (List Char)) :=
  if estimateTokens word block ≤ budget then .ok [block]
  else if isFence block then
    if estimateTokens word block ≤ fenceCap budget then .ok [block]
    else splitLines word block (fenceCap budget)
  else
    .ok ((sentences block).flatMap fun sentence =>
      if estimateTokens word sentence ≤ budget then [sentence] else splitWords word sentence budget)

end

end MarkSdk.Chunking
