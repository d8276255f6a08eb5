import MarkSdk.Chunking.Pack

/-!
Sections of a document, and its chunks.

A heading closes the section before it and stays open until one of its level or
above; a section has the names of the headings that are open in its path. Fenced
lines belong to one block, whatever they look like.
-/

namespace MarkSdk.Chunking

open Lib

/-! ### Lines -/

/-- `text.replace("\r\n", "\n")` -/
def unixNewlines : List Char → List Char
  | '\r' :: '\n' :: s => '\n' :: unixNewlines s
  | c :: s => c :: unixNewlines s
  | [] => []

def documentLines (text : List Char) : List (List Char) := lines (unixNewlines text)

structure Heading where
  level : Nat
  name : List Char
  deriving DecidableEq, Repr

/-- `\s*#*\s*$` -/
def isClosing (s : List Char) : Bool :=
  ((s.dropWhile isSpace).dropWhile fun c => c = '#').all isSpace

/-- `(.+?)` in front of it. -/
def headingName : List Char → List Char
  | [] => []
  | c :: s => if isClosing s then [c] else c :: headingName s

/-- `_HEADING`: the number of marks and the name; where only blanks follow the
marks, the last one of at least two is the name. -/
def heading (line : List Char) : Option Heading :=
  let rest := line.dropWhile isSpace
  let level := (rest.takeWhile fun c => c = '#').length
  let behind := rest.dropWhile fun c => c = '#'
  let title := behind.dropWhile isSpace
  if rest.length + 3 < line.length then none
  else if level = 0 ∨ 6 < level then none
  else if behind.length = title.length then none
  else if title ≠ [] then some ⟨level, stripChars isSpace (headingName title)⟩
  else if 2 ≤ behind.length then some ⟨level, []⟩
  else none

/-! ### Markdown -/

structure Section where
  headingPath : List (List Char)
  blocks : List (List Char)
  deriving DecidableEq, Repr

/-- The variables of the loop of `_markdown_sections`. -/
structure Scan where
  sections : List Section
  stack : List Heading
  blocks : List (List Char)
  paragraph : List (List Char)
  fence : Option (List (List Char) × List Char)

namespace Scan

def empty : Scan := ⟨[], [], [], [], none⟩

def path (root : List (List Char)) (s : Scan) : List (List Char) := root ++ s.stack.map Heading.name

def endParagraph (s : Scan) : Scan :=
  if s.paragraph ≠ [] then
    { s with blocks := s.blocks ++ [stripChars isSpace (unlines s.paragraph)], paragraph := [] }
  else s

def endSection (root : List (List Char)) (s : Scan) : Scan :=
  if s.blocks ≠ [] then
    { s with sections := s.sections ++ [⟨s.path root, s.blocks⟩], blocks := [] }
  else s

def step (root : List (List Char)) (s : Scan) (line : List Char) : Scan :=
  match s.fence with
  | some (fence, mark) =>
      if mark.isPrefixOf (stripChars isSpace line) then
        { s with blocks := s.blocks ++ [unlines (fence ++ [line])], fence := none }
      else { s with fence := some (fence ++ [line], mark) }
  | none =>
      match fenceMark line with
      | some mark => { s.endParagraph with fence := some ([line], mark) }
      | none =>
          match heading line with
          | some h =>
              let s := s.endParagraph.endSection root
              { s with stack := s.stack.filter (fun g => g.level < h.level) ++ [h] }
          | none =>
              if stripChars isSpace line ≠ [] then { s with paragraph := s.paragraph ++ [line] }
              else s.endParagraph

/-- An unterminated fence keeps what there is. -/
def endFence (s : Scan) : Scan :=
  match s.fence with
  | some (fence, _) => { s with blocks := s.blocks ++ [unlines fence], fence := none }
  | none => s

def finish (root : List (List Char)) (s : Scan) : List Section :=
  (s.endFence.endParagraph.endSection root).sections

end Scan

/-- The title, for a document without a top heading. -/
def markdownRoot (ls : List (List Char)) (title : Option (List Char)) : List (List Char) :=
  if ls.any fun line => (heading line).any fun h => h.level = 1 then []
  else (title.filter fun t => t ≠ []).toList

def markdownSections (ls : List (List Char)) (title : Option (List Char)) : List Section :=
  let root := markdownRoot ls title
  (ls.foldl (Scan.step root) .empty).finish root

/-! ### Code -/

section

variable (word : Char → Bool)

/-- The keyword, up to the end of a word. -/
def keyword (key : String) (s : List Char) : Bool :=
  key.toList.isPrefixOf s && !(s.drop key.length).head?.any word

/-- What follows the word and the blanks behind it. -/
def afterBlanks (first : String) (s : List Char) : Option (List Char) :=
  let behind := s.drop first.length
  let rest := behind.dropWhile isSpace
  if first.toList.isPrefixOf s && rest.length < behind.length then some rest else none

def topLevel (line : List Char) : Bool :=
  let exported (s : List Char) := ["function", "class", "const"].any fun key => keyword word key s
  (afterBlanks "async" line).any (keyword word "def") ||
    (["def", "class", "function", "fn", "func"].any fun key => keyword word key line) ||
    (afterBlanks "pub" line).any (keyword word "fn") ||
    (["impl", "struct", "interface", "type", "const", "let"].any fun key => keyword word key line) ||
    (afterBlanks "export" line).any fun s =>
      exported s || (afterBlanks "default" s).any exported

/-- The variables of the loop of `_code_sections`. -/
structure CodeScan where
  sections : List Section
  current : List (List Char)
  name : List Char

def CodeScan.endSection (root : List (List Char)) (s : CodeScan) : List Section :=
  if stripChars isSpace (unlines s.current) ≠ [] then
    s.sections ++ [⟨root ++ (if s.name ≠ [] then [s.name] else []),
      [stripChars (fun c => c = '\n') (unlines s.current)]⟩]
  else s.sections

def definitionName (line : List Char) : List Char :=
  unwords ((words ((line.takeWhile fun c => c ≠ '(').takeWhile fun c => c ≠ ':')).take 3)

def CodeScan.step (root : List (List Char)) (s : CodeScan) (line : List Char) : CodeScan :=
  if topLevel word line ∧ ¬ line.head?.any isSpace then
    ⟨s.endSection root, [line], definitionName line⟩
  else { s with current := s.current ++ [line] }

def codeSections (ls : List (List Char)) (title : Option (List Char)) : List Section :=
  let root := (title.filter fun t => t ≠ []).toList
  (ls.foldl (CodeScan.step word root) ⟨[], [], []⟩).endSection root

/-! ### Chunks -/

structure Chunk where
  index : Nat
  headingPath : List (List Char)
  body : List Char
  deriving DecidableEq, Repr

def sections (text : List Char) (title : Option (List Char)) (kind : String) : List Section :=
  if kind = "code" then codeSections word (documentLines text) title
  else markdownSections (documentLines text) title

def sectionBodies (chunkTokens overlap : Int) (s : Section) :
    Except ChunkError (List (List (List Char) × List Char)) := do
  let bodies ← pack word s.blocks chunkTokens overlap
  return bodies.map fun body => (s.headingPath, body)

def chunkText (text : List Char) (title : Option (List Char)) (kind : String)
    (chunkTokens overlap : Int) : Except ChunkError (List Chunk) := do
  if chunkTokens ≤ 0 then throw (.valueError "chunk_tokens must be positive")
  if overlap < 0 ∨ overlap ≥ chunkTokens then
    throw (.valueError "overlap must be >= 0 and smaller than chunk_tokens")
  let bodies ← (sections word text title kind).mapM (sectionBodies word chunkTokens overlap)
  return bodies.flatten.zipIdx.map fun b => ⟨b.2, b.1.1, b.1.2⟩

end

end MarkSdk.Chunking
