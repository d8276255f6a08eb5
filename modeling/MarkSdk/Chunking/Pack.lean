import Mathlib.Algebra.Order.Group.MinMax
import MarkSdk.Chunking.Blocks

/-!
Packing the parts of a section's blocks into chunk bodies.

A body takes parts as long as they fit the budget. The next one begins with the
last parts of it again, as far as the overlap and the room beside the next part
allow. The bodies hold every part once and in order besides what they carry
over, and only a part that is itself too large is over the budget
(`packPieces_bodies`).
-/

namespace MarkSdk.Chunking

open Lib

/-- What goes before a piece that follows another one. -/
inductive Separator : Type
  | blankLine | space
  deriving DecidableEq, Repr

def Separator.text : Separator → List Char
  | .blankLine => ['\n', '\n']
  | .space => [' ']

structure Piece where
  separator : Separator
  text : List Char
  deriving DecidableEq, Repr

def join : List Piece → List Char
  | [] => []
  | piece :: pieces => piece.text ++ (pieces.map fun p => p.separator.text ++ p.text).flatten

section

variable (word : Char → Bool)

def Piece.cost (p : Piece) : Int := estimateTokens word p.text

/-- The estimated tokens of the pieces. -/
def sizeOf (pieces : List Piece) : Int := (pieces.map (Piece.cost word)).sum

/-- The loop of `_tail`, on the pieces from the last one on. -/
def tailFrom (limit : Int) (kept : List Piece) (size : Int) : List Piece → List Piece
  | [] => kept
  | piece :: pieces =>
      if isFence piece.text ∨ size + piece.cost word > limit then kept
      else tailFrom limit (piece :: kept) (size + piece.cost word) pieces

def tail (pieces : List Piece) (overlap room : Int) : List Piece :=
  if overlap ≤ 0 ∨ room ≤ 0 then [] else tailFrom word (min overlap room) [] 0 pieces.reverse

/-- The loop of `_pack`. -/
structure Packing where
  bodies : List (List Char)
  current : List Piece
  size : Int

def Packing.step (budget overlap : Int) (s : Packing) (piece : Piece) : Packing :=
  let cost := piece.cost word
  let s : Packing :=
    if s.current ≠ [] ∧ s.size + cost > budget then
      let current := tail word s.current overlap (budget - cost)
      { bodies := s.bodies ++ [join s.current], current := current, size := sizeOf word current }
    else s
  { s with current := s.current ++ [piece], size := s.size + cost }

def Packing.finish (s : Packing) : List (List Char) :=
  if s.current ≠ [] then s.bodies ++ [join s.current] else s.bodies

/-- The bodies of the pieces. -/
def packPieces (budget overlap : Int) (pieces : List Piece) : List (List Char) :=
  (pieces.foldl (Packing.step word budget overlap) ⟨[], [], 0⟩).finish

def blockPieces (budget : Int) (block : List Char) : Except ChunkError (List Piece) := do
  match ← splitBlock word block budget with
  | [] => .error .indexError
  | part :: parts =>
      .ok (⟨.blankLine, part⟩ :: parts.map fun p =>
        ⟨if isFence block then .blankLine else .space, p⟩)

def pack (blocks : List (List Char)) (budget overlap : Int) : Except ChunkError (List (List Char)) := do
  let pieces ← blocks.mapM (blockPieces word budget)
  return packPieces word budget overlap pieces.flatten

end

/-! ### Tokens of a body -/

section

variable {word : Char → Bool}

/-- A blank ends a word. -/
theorem tokensFrom_append_blank {c : Char} (hword : word c = false) (hspace : isSpace c = true)
    (inWord : Bool) (a b : List Char) :
    tokensFrom word inWord (a ++ c :: b) = tokensFrom word inWord a + estimateTokens word b := by
  induction a generalizing inWord with
  | nil => simp [tokensFrom, hword, hspace, estimateTokens]
  | cons d a ih =>
      simp only [List.cons_append, tokensFrom, ih]
      split <;> omega

/-- Blanks have no tokens. -/
theorem estimateTokens_blank {c : Char} (hword : word c = false) (hspace : isSpace c = true)
    (b : List Char) : estimateTokens word (c :: b) = estimateTokens word b := by
  simp [estimateTokens, tokensFrom, hword, hspace]

variable (hblank : ∀ c, word c = true → isSpace c = false)

include hblank

theorem word_of_isSpace {c : Char} (h : isSpace c = true) : word c = false := by
  cases hw : word c with
  | false => rfl
  | true => rw [hblank c hw] at h; cases h

theorem estimateTokens_separator (a b : List Char) (sep : Separator) :
    estimateTokens word (a ++ (sep.text ++ b)) = estimateTokens word a + estimateTokens word b := by
  have hnewline := word_of_isSpace hblank (c := '\n') rfl
  have hspace := word_of_isSpace hblank (c := ' ') rfl
  cases sep with
  | blankLine =>
      show estimateTokens word (a ++ '\n' :: '\n' :: b) = _
      rw [estimateTokens, tokensFrom_append_blank hnewline rfl,
        estimateTokens_blank hnewline rfl]
      rfl
  | space =>
      show estimateTokens word (a ++ ' ' :: b) = _
      rw [estimateTokens, tokensFrom_append_blank hspace rfl]
      rfl

/-- A body has the tokens of its pieces. -/
theorem estimateTokens_join (pieces : List Piece) :
    (estimateTokens word (join pieces) : Int) = sizeOf word pieces := by
  have htail (text : List Char) (pieces : List Piece) :
      (estimateTokens word (text ++ (pieces.map fun p => p.separator.text ++ p.text).flatten) : Int) =
        estimateTokens word text + sizeOf word pieces := by
    induction pieces generalizing text with
    | nil => simp [sizeOf]
    | cons p pieces ih =>
        rw [List.map_cons, List.flatten_cons, ← List.append_assoc, ih,
          estimateTokens_separator hblank, sizeOf, sizeOf, List.map_cons, List.sum_cons, Piece.cost]
        omega
  cases pieces with
  | nil => rfl
  | cons p pieces =>
      rw [join, htail]
      rfl

end

/-! ### What is carried over -/

section

variable {word : Char → Bool}

theorem sizeOf_append (pieces pieces' : List Piece) :
    sizeOf word (pieces ++ pieces') = sizeOf word pieces + sizeOf word pieces' := by
  rw [sizeOf, List.map_append, List.sum_append]
  rfl

theorem sizeOf_singleton (p : Piece) : sizeOf word [p] = p.cost word := by
  simp [sizeOf]

theorem tailFrom_spec {limit : Int} {kept : List Piece} (hsize : sizeOf word kept ≤ limit)
    (rest : List Piece) :
    tailFrom word limit kept (sizeOf word kept) rest <:+ rest.reverse ++ kept ∧
      sizeOf word (tailFrom word limit kept (sizeOf word kept) rest) ≤ limit := by
  induction rest generalizing kept with
  | nil => exact ⟨List.suffix_rfl, hsize⟩
  | cons p rest ih =>
      have hcons : sizeOf word kept + p.cost word = sizeOf word (p :: kept) := Int.add_comm _ _
      rw [tailFrom]
      split
      · exact ⟨List.suffix_append _ kept, hsize⟩
      · rename_i hfits
        rw [not_or, hcons] at hfits
        rw [hcons, List.reverse_cons, List.append_assoc]
        exact ih (by omega)

/-- The last pieces, within the overlap and the room. -/
theorem tail_spec (pieces : List Piece) (overlap room : Int) :
    tail word pieces overlap room <:+ pieces ∧
      sizeOf word (tail word pieces overlap room) ≤ overlap.toNat ∧
        (tail word pieces overlap room ≠ [] →
          sizeOf word (tail word pieces overlap room) ≤ room) := by
  rw [tail]
  split
  · exact ⟨List.nil_suffix, Int.natCast_nonneg _, fun h => absurd rfl h⟩
  · rename_i hpositive
    obtain ⟨hsuffix, hsize⟩ := @tailFrom_spec word (min overlap room) []
      (by show (0 : Int) ≤ _; omega) pieces.reverse
    rw [List.reverse_reverse, List.append_nil] at hsuffix
    have hsize : sizeOf word (tailFrom word (min overlap room) [] 0 pieces.reverse) ≤
        min overlap room := hsize
    exact ⟨hsuffix, by omega, fun _ => by omega⟩

/-! ### The bodies -/

variable (word) in
/-- The next piece is over the budget. -/
def overBudget (budget : Int) (current : List Piece) (piece : Piece) : Bool :=
  decide (sizeOf word current + piece.cost word > budget)

variable (word) in
/-- What goes over to the body of the next piece. -/
def carried (budget overlap : Int) (current : List Piece) (piece : Piece) : List Piece :=
  tail word current overlap (budget - piece.cost word)

theorem foldl_step (budget overlap : Int) (pieces : List Piece) {s : Packing}
    (hsize : s.size = sizeOf word s.current) :
    (pieces.foldl (Packing.step word budget overlap) s).finish =
      s.bodies ++
        (packing (overBudget word budget) (carried word budget overlap) s.current pieces).map join := by
  induction pieces generalizing s with
  | nil =>
      rw [List.foldl_nil, Packing.finish, packing]
      by_cases hempty : s.current = [] <;> simp [hempty]
  | cons p pieces ih =>
      have hsize' : (s.step word budget overlap p).size =
          sizeOf word (s.step word budget overlap p).current := by
        rw [Packing.step]
        simp only
        split <;> simp only [sizeOf_append, sizeOf_singleton, hsize]
      rw [List.foldl_cons, ih hsize']
      by_cases hnext : s.current ≠ [] ∧ s.size + p.cost word > budget
      · have hover : overBudget word budget s.current p = true := by
          rw [overBudget, ← hsize]
          exact decide_eq_true hnext.2
        have hstep : s.step word budget overlap p =
            ⟨s.bodies ++ [join s.current], carried word budget overlap s.current p ++ [p],
              sizeOf word (carried word budget overlap s.current p) + p.cost word⟩ := by
          rw [Packing.step]
          simp only [hnext, and_self, if_true, ne_eq, not_false_eq_true]
          rfl
        rw [hstep, packing_cons_of_full pieces hnext.1 hover, List.map_cons, List.append_assoc]
        rfl
      · have hover : s.current = [] ∨ overBudget word budget s.current p = false := by
          rw [not_and_or, not_not] at hnext
          refine hnext.imp_right fun h => ?_
          rw [overBudget, ← hsize]
          exact decide_eq_false h
        have hstep : s.step word budget overlap p =
            ⟨s.bodies, s.current ++ [p], s.size + p.cost word⟩ := by
          rw [Packing.step]
          simp only [hnext, if_false]
        rw [hstep, packing_cons_of_not_full pieces hover]

theorem packPieces_eq (budget overlap : Int) (pieces : List Piece) :
    packPieces word budget overlap pieces =
      (packing (overBudget word budget) (carried word budget overlap) [] pieces).map join :=
  foldl_step budget overlap pieces rfl

/-- Within the budget, or one piece that is too large itself. -/
def Within (word : Char → Bool) (budget : Int) (body : List Piece) : Prop :=
  sizeOf word body ≤ budget ∨ ∃ piece, body = [piece] ∧ budget < estimateTokens word piece.text

theorem within_packing (budget overlap : Int) (pieces : List Piece) :
    ∀ body ∈ packing (overBudget word budget) (carried word budget overlap) [] pieces,
      Within word budget body := by
  have hone (p : Piece) : Within word budget [p] := by
    by_cases hfits : p.cost word ≤ budget
    · exact .inl (by rw [sizeOf_singleton]; exact hfits)
    · exact .inr ⟨p, rfl, Int.not_le.mp hfits⟩
  refine forall_packing hone (fun current p _ hover => .inl ?_) (fun current p _ => ?_)
    (fun h => absurd rfl h)
  · have hfits : ¬ sizeOf word current + p.cost word > budget := of_decide_eq_false hover
    rw [sizeOf_append, sizeOf_singleton]
    omega
  · -- what is carried over leaves room for the piece, or nothing is
    obtain ⟨-, -, hroom⟩ := @tail_spec word current overlap (budget - p.cost word)
    by_cases hnothing : carried word budget overlap current p = []
    · rw [hnothing]
      exact hone p
    · have hroom := hroom hnothing
      refine .inl ?_
      rw [sizeOf_append, sizeOf_singleton]
      show sizeOf word (tail word current overlap (budget - p.cost word)) + p.cost word ≤ budget
      omega

/-- The bodies of the pieces, each as what it carries over and its new pieces. -/
structure Bodies (word : Char → Bool) (budget overlap : Int) (pieces : List Piece)
    (bodies : List (List Char)) (parts : List (List Piece × List Piece)) : Prop where
  bodies : bodies = parts.map fun p => join (p.1 ++ p.2)
  lossless : (parts.map Prod.snd).flatten = pieces
  new : ∀ p ∈ parts, p.2 ≠ []
  first : ∀ p ∈ parts.head?, p.1 = []
  carried : parts.IsChain fun p q => q.1 <:+ p.1 ++ p.2
  overlap : ∀ p ∈ parts, (estimateTokens word (join p.1) : Int) ≤ overlap.toNat
  budget : ∀ p ∈ parts, (estimateTokens word (join (p.1 ++ p.2)) : Int) ≤ budget ∨
    ∃ piece, p.1 ++ p.2 = [piece] ∧ budget < estimateTokens word piece.text

/-- What a body begins with is empty or the tail of the body before. -/
theorem carried_of_parts {budget overlap : Int} {new : List Piece}
    {parts : List (List Piece × List Piece)}
    (h : Parts (carried word budget overlap) [] new parts) :
    ∀ p ∈ parts, sizeOf word p.1 ≤ overlap.toNat := by
  have hchain (q : List Piece × List Piece) {parts : List (List Piece × List Piece)}
      (hq : sizeOf word q.1 ≤ overlap.toNat)
      (hnext : (q :: parts).IsChain fun p q =>
        ∃ x, q.2.head? = some x ∧ q.1 = carried word budget overlap (p.1 ++ p.2) x) :
      ∀ p ∈ q :: parts, sizeOf word p.1 ≤ overlap.toNat := by
    induction parts generalizing q with
    | nil => simpa using hq
    | cons p parts ih =>
        obtain ⟨⟨x, -, hp⟩, hrest⟩ := List.isChain_cons_cons.mp hnext
        have hbound := (@tail_spec word (q.1 ++ q.2) overlap (budget - x.cost word)).2.1
        have hp : sizeOf word p.1 ≤ overlap.toNat := by
          rw [hp]
          exact hbound
        rintro r (_ | ⟨_, hr⟩)
        · exact hq
        · exact ih p hp hrest r hr
  cases parts with
  | nil => simp
  | cons q parts =>
      refine hchain q ?_ h.next
      rw [h.first q rfl]
      exact Int.natCast_nonneg _

theorem bodies_packPieces (hblank : ∀ c, word c = true → isSpace c = false)
    (budget overlap : Int) (pieces : List Piece) :
    ∃ parts, Bodies word budget overlap pieces (packPieces word budget overlap pieces) parts := by
  obtain ⟨parts, hparts, h⟩ :=
    @exists_parts Piece (overBudget word budget) (carried word budget overlap) pieces
  have hwithin := @within_packing word budget overlap pieces
  rw [hparts] at hwithin
  refine ⟨parts, ?_, h.new, h.nonempty, h.first, ?_, ?_, ?_⟩
  · rw [packPieces_eq, hparts, List.map_map]
    rfl
  · refine h.next.imp fun p q hq => ?_
    obtain ⟨x, -, hq⟩ := hq
    rw [hq]
    exact (tail_spec (p.1 ++ p.2) overlap (budget - x.cost word)).1
  · intro p hp
    rw [estimateTokens_join hblank]
    exact carried_of_parts h p hp
  · intro p hp
    rw [estimateTokens_join hblank]
    exact hwithin _ (List.mem_map_of_mem hp)

/-- Every body is within the budget or a single piece that is too large, begins
with at most `overlap` tokens of the end of the body before, and goes on with
the next pieces: together these are all the pieces, in order. -/
theorem pack_bodies (word : Char → Bool) (hblank : ∀ c, word c = true → isSpace c = false)
    (budget overlap : Int) :
    (∀ pieces, ∃ parts,
      Bodies word budget overlap pieces (packPieces word budget overlap pieces) parts) ∧
    ∀ blocks bodies, pack word blocks budget overlap = .ok bodies →
      ∃ pieces parts, blocks.mapM (blockPieces word budget) = .ok pieces ∧
        Bodies word budget overlap pieces.flatten bodies parts := by
  refine ⟨bodies_packPieces hblank budget overlap, fun blocks bodies hpack => ?_⟩
  rw [pack] at hpack
  cases hpieces : blocks.mapM (blockPieces word budget) with
  | error e =>
      rw [hpieces] at hpack
      cases hpack
  | ok pieces =>
      rw [hpieces] at hpack
      cases hpack
      obtain ⟨parts, hparts⟩ := bodies_packPieces hblank budget overlap pieces.flatten
      exact ⟨pieces, parts, rfl, hparts⟩

end

/-- Word characters of plain text. -/
def plainWord (c : Char) : Bool := 97 ≤ c.toNat && c.toNat ≤ 122

theorem isSpace_of_plainWord (c : Char) (h : plainWord c = true) : isSpace c = false := by
  rw [plainWord, Bool.and_eq_true, decide_eq_true_iff, decide_eq_true_iff] at h
  have hlist : [133, 160, 5760, 8232, 8233, 8239, 8287, 12288].contains c.toNat = false := by
    simp
    omega
  rw [isSpace, hlist]
  simp
  omega

/-- The second piece is carried over to the third one, and not to the fourth,
which leaves no room. -/
def fourPieces : List Piece :=
  [⟨.blankLine, ['a', ' ', 'b', ' ', 'c']⟩, ⟨.space, ['d']⟩, ⟨.space, ['e', ' ', 'f', ' ', 'g']⟩,
    ⟨.blankLine, ['h', ' ', 'i', ' ', 'j', ' ', 'k', ' ', 'l']⟩]

theorem pack_bodies_four :
    ∃ parts, Bodies plainWord 4 2 fourPieces
      [['a', ' ', 'b', ' ', 'c', ' ', 'd'], ['d', ' ', 'e', ' ', 'f', ' ', 'g'],
        ['h', ' ', 'i', ' ', 'j', ' ', 'k', ' ', 'l']] parts :=
  (pack_bodies plainWord isSpace_of_plainWord 4 2).1 fourPieces

end MarkSdk.Chunking
