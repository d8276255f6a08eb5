import Mathlib.Data.Nat.Bitwise
import Mathlib.Data.List.Basic
import MarkSdk.Store.Values

/-!
Keyed token sketches: a small Bloom filter of the words of a memory.

A sketch is the union of the bits of the words, two bits a word, taken from a
keyed hash. The bits of some words are all in the sketch of a text that has the
words (`sketch_covers`); other texts may have them as well.
-/

namespace MarkSdk

/-- `sketch_tokens`, as a list: the words of the text in lower case, where `_`
splits words. -/
def sketchTokens (py : Python) (text : String) : List String :=
  let spaced := (py.lower text).toList.map fun c => if c = '_' then ' ' else c
  ((spaced.splitOnP fun c => !py.isWord c).filter fun w => !w.isEmpty).map String.ofList

structure TokenSketcher where
  /-- The two little-endian numbers of the keyed BLAKE2b digest of a word -/
  mac : String → Nat × Nat

namespace TokenSketcher

def sketchBits : Nat := 512

variable (sketcher : TokenSketcher)

def tokenBits (token : String) : Nat :=
  1 <<< ((sketcher.mac token).1 % sketchBits) ||| 1 <<< ((sketcher.mac token).2 % sketchBits)

/-- `query`: the union of the bits of the tokens. -/
def query (tokens : List String) : Nat :=
  tokens.foldl (fun bits token => bits ||| sketcher.tokenBits token) 0

def sketch (py : Python) (text : String) : Nat := sketcher.query (sketchTokens py text)

variable {sketcher}

theorem testBit_foldl {i start : Nat} {tokens : List String} :
    (tokens.foldl (fun bits token => bits ||| sketcher.tokenBits token) start).testBit i = true ↔
      start.testBit i = true ∨ ∃ token ∈ tokens, (sketcher.tokenBits token).testBit i = true := by
  induction tokens generalizing start with
  | nil => simp
  | cons token tokens ih =>
      rw [List.foldl_cons, ih, Nat.testBit_or, Bool.or_eq_true, or_assoc, List.exists_mem_cons_iff]

/-- A bit is in a query when one of the words has it. -/
theorem testBit_query {i : Nat} {tokens : List String} :
    (sketcher.query tokens).testBit i = true ↔
      ∃ token ∈ tokens, (sketcher.tokenBits token).testBit i = true := by
  rw [query, testBit_foldl]
  simp

/-- The bits of some of the words are all there. -/
theorem query_and_of_subset {tokens wanted : List String} (h : wanted ⊆ tokens) :
    sketcher.query tokens &&& sketcher.query wanted = sketcher.query wanted := by
  refine Nat.eq_of_testBit_eq fun i => ?_
  rw [Nat.testBit_and, Bool.and_eq_right_iff_imp]
  intro hwanted
  obtain ⟨token, htoken, hbit⟩ := testBit_query.mp hwanted
  exact testBit_query.mpr ⟨token, h htoken, hbit⟩

theorem sketch_covers {py : Python} {text : String} {tokens : List String}
    (h : tokens ⊆ sketchTokens py text) :
    sketcher.sketch py text &&& sketcher.query tokens = sketcher.query tokens :=
  query_and_of_subset h

end TokenSketcher

end MarkSdk
