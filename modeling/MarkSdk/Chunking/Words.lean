import Mathlib.Data.List.TakeWhile
import MarkSdk.Lib.MapM
import MarkSdk.Chunking.Pack

/-!
The words of a text and of its parts.

A blank ends a word, so the words of a text that is put together with blanks are
those of the parts. Splitting at sentence ends and word boundaries keeps all
words in order; of an oversized fence the parts have the words of the opener, the
marker and the kept lines (`mem_words_splitBlock`).
-/

namespace MarkSdk.Chunking

open Lib

/-! ### Putting together -/

theorem splitWords_append_blank {c : Char} (h : isSpace c = true) (a b word : List Char) :
    MarkSdk.splitWords (a ++ c :: b) word = MarkSdk.splitWords a word ++ words b := by
  induction a generalizing word with
  | nil =>
      simp only [List.nil_append, MarkSdk.splitWords, h, if_true, pushWord]
      split <;> rfl
  | cons d a ih =>
      rw [List.cons_append, MarkSdk.splitWords, MarkSdk.splitWords]
      split
      · rw [ih, pushWord, pushWord]
        split <;> rfl
      · exact ih (d :: word)

theorem words_append_blank {c : Char} (h : isSpace c = true) (a b : List Char) :
    words (a ++ c :: b) = words a ++ words b := splitWords_append_blank h a b []

@[simp] theorem words_nil : words [] = [] := rfl

theorem words_blank {c : Char} (h : isSpace c = true) (b : List Char) : words (c :: b) = words b := by
  have happend := words_append_blank h [] b
  rwa [words_nil, List.nil_append, List.nil_append] at happend

theorem words_dropWhile (a : List Char) : words (a.dropWhile isSpace) = words a := by
  induction a with
  | nil => rfl
  | cons c a ih =>
      rw [List.dropWhile_cons]
      split
      · rename_i hc
        rw [ih, words_blank hc]
      · rfl

/-- Blanks at the end are in no word. -/
theorem words_append_blanks (a : List Char) {b : List Char} (h : ∀ c ∈ b, isSpace c = true) :
    words (a ++ b) = words a := by
  cases b with
  | nil => rw [List.append_nil]
  | cons c b =>
      have hb : b.dropWhile isSpace = [] :=
        List.dropWhile_eq_nil_iff.mpr fun d hd => h d (List.mem_cons_of_mem c hd)
      rw [words_append_blank (h c List.mem_cons_self), ← words_dropWhile b, hb, words_nil,
        List.append_nil]

theorem words_rstrip (p : Char → Bool) (hp : ∀ c, p c = true → isSpace c = true) (a : List Char) :
    words (rstripChars p a) = words a := by
  have hsplit : a = rstripChars p a ++ (a.reverse.takeWhile p).reverse := by
    rw [rstripChars, ← List.reverse_append, List.takeWhile_append_dropWhile, List.reverse_reverse]
  have hblanks : ∀ c ∈ (a.reverse.takeWhile p).reverse, isSpace c = true := by
    intro c hc
    rw [List.mem_reverse] at hc
    exact hp c (List.mem_takeWhile_imp hc)
  calc words (rstripChars p a)
      = words (rstripChars p a ++ (a.reverse.takeWhile p).reverse) :=
        (words_append_blanks _ hblanks).symm
    _ = words a := by rw [← hsplit]

/-- Stripping blanks takes no word. -/
theorem words_strip (p : Char → Bool) (hp : ∀ c, p c = true → isSpace c = true) (a : List Char) :
    words (stripChars p a) = words a := by
  have hdrop (a : List Char) : words (a.dropWhile p) = words a := by
    induction a with
    | nil => rfl
    | cons c a ih =>
        rw [List.dropWhile_cons]
        split
        · rename_i hc
          rw [ih, words_blank (hp c hc)]
        · rfl
  rw [stripChars, words_rstrip p hp, hdrop]

theorem words_intercalate {c : Char} (h : isSpace c = true) (parts : List (List Char)) :
    words ([c].intercalate parts) = parts.flatMap words := by
  induction parts with
  | nil => rfl
  | cons part parts ih =>
      cases parts with
      | nil => simp [List.intercalate]
      | cons next parts =>
          rw [List.intercalate_cons_cons, List.append_assoc, List.singleton_append,
            words_append_blank h, ih]
          rfl

theorem words_unlines (ls : List (List Char)) : words (unlines ls) = ls.flatMap words :=
  words_intercalate rfl ls

theorem words_unwords (ws : List (List Char)) : words (unwords ws) = ws.flatMap words :=
  words_intercalate rfl ws

theorem words_separator (a b : List Char) (sep : Separator) :
    words (a ++ (sep.text ++ b)) = words a ++ words b := by
  cases sep with
  | blankLine =>
      show words (a ++ '\n' :: '\n' :: b) = _
      rw [words_append_blank rfl, words_blank rfl]
  | space =>
      show words (a ++ ' ' :: b) = _
      rw [words_append_blank rfl]

theorem words_join (pieces : List Piece) :
    words (join pieces) = pieces.flatMap fun p => words p.text := by
  have htail (text : List Char) (pieces : List Piece) :
      words (text ++ (pieces.map fun p => p.separator.text ++ p.text).flatten) =
        words text ++ pieces.flatMap fun p => words p.text := by
    induction pieces generalizing text with
    | nil => simp
    | cons p pieces ih =>
        rw [List.map_cons, List.flatten_cons, ← List.append_assoc, ih, words_separator,
          List.flatMap_cons, List.append_assoc]
  cases pieces with
  | nil => rfl
  | cons p pieces => exact htail p.text pieces

/-! ### Taking apart -/

theorem words_of_mem {text w : List Char} (hw : w ∈ words text) : words w = [w] := by
  have hword {w : List Char} (hne : w ≠ []) (hplain : ∀ c ∈ w, isSpace c = false) :
      words w = [w] := by
    have hfrom (s word : List Char) (hs : ∀ c ∈ s, isSpace c = false)
        (h : word.reverse ++ s ≠ []) : MarkSdk.splitWords s word = [word.reverse ++ s] := by
      induction s generalizing word with
      | nil =>
          rw [List.append_nil] at h ⊢
          rw [MarkSdk.splitWords, pushWord, if_neg (by simpa using h)]
      | cons c s ih =>
          obtain ⟨hc, hs⟩ := List.forall_mem_cons.mp hs
          have happend : (c :: word).reverse ++ s = word.reverse ++ c :: s := by simp
          rw [MarkSdk.splitWords, if_neg (by simp [hc]), ih (c :: word) hs (by simp), happend]
    exact hfrom w [] hplain (by simpa using hne)
  have hmem (s word : List Char) (hplain : ∀ c ∈ word, isSpace c = false) :
      ∀ w ∈ MarkSdk.splitWords s word, w ≠ [] ∧ ∀ c ∈ w, isSpace c = false := by
    have hpush (word : List Char) (hplain : ∀ c ∈ word, isSpace c = false)
        (ws : List (List Char)) (hws : ∀ w ∈ ws, w ≠ [] ∧ ∀ c ∈ w, isSpace c = false) :
        ∀ w ∈ pushWord word ws, w ≠ [] ∧ ∀ c ∈ w, isSpace c = false := by
      intro w hw
      rw [pushWord] at hw
      split at hw
      · exact hws w hw
      · rename_i hne
        obtain rfl | hw := List.mem_cons.mp hw
        · exact ⟨by simpa using hne, fun c hc => hplain c (List.mem_reverse.mp hc)⟩
        · exact hws w hw
    induction s generalizing word with
    | nil => exact hpush word hplain [] (by simp)
    | cons c s ih =>
        rw [MarkSdk.splitWords]
        split
        · exact hpush word hplain _ (ih [] (by simp))
        · rename_i hc
          exact ih (c :: word) (List.forall_mem_cons.mpr ⟨by simpa using hc, hplain⟩)
  obtain ⟨hne, hplain⟩ := hmem text [] (by simp) w hw
  exact hword hne hplain

theorem flatMap_words_words (text : List Char) : (words text).flatMap words = words text := by
  have hall : ∀ w ∈ words text, words w = [w] := fun w hw => words_of_mem hw
  rw [List.flatMap_congr hall, List.flatMap_singleton']

theorem flatMap_sentencesFrom (s : List Char) {skipping : Bool} {before : Option Char}
    {sentence : List Char} (hskip : skipping = true → sentence = []) :
    (sentencesFrom skipping before sentence s).flatMap words = words (sentence.reverse ++ s) := by
  induction s generalizing skipping before sentence with
  | nil => simp [sentencesFrom]
  | cons c s ih =>
      rw [sentencesFrom]
      split
      · rename_i hblank
        rw [Bool.and_eq_true] at hblank
        obtain rfl := hskip hblank.1
        rw [ih (fun _ => rfl), List.reverse_nil, List.nil_append, List.nil_append,
          words_blank hblank.2]
      · split
        · rename_i hend
          rw [Bool.and_eq_true, Bool.and_eq_true] at hend
          rw [List.flatMap_cons, ih (fun _ => rfl), words_append_blank hend.1.1]
          rfl
        · rw [ih (fun h => absurd h (by simp)), List.reverse_cons, List.append_assoc]
          rfl

/-- The sentences have the words of the block. -/
theorem flatMap_sentences (block : List Char) :
    (sentences block).flatMap words = words block :=
  flatMap_sentencesFrom block (fun h => by cases h)

variable {word : Char → Bool}

theorem flatMap_splitWords (text : List Char) (budget : Int) :
    (splitWords word text budget).flatMap words = words text := by
  have hflat (groups : List (List (List Char))) :
      (groups.map unwords).flatMap words = groups.flatten.flatMap words := by
    rw [List.flatMap_map, ← List.flatMap_id, List.flatMap_assoc]
    exact List.flatMap_congr fun ws _ => words_unwords ws
  rw [splitWords, hflat, flatten_filling, flatMap_words_words]

/-- An oversized fence, and what is kept of it. -/
def Oversized (word : Char → Bool) (budget : Int) (block : List Char) : Prop :=
  budget < estimateTokens word block ∧ isFence block = true ∧
    fenceCap budget < estimateTokens word block

instance (budget : Int) (block : List Char) : Decidable (Oversized word budget block) :=
  inferInstanceAs (Decidable (_ ∧ _ ∧ _))

def opener (block : List Char) : List Char := (lines block).headD []

/-- The parts of a block that is no oversized fence have its words, in order. -/
theorem flatMap_splitBlock {budget : Int} {block : List Char} (h : ¬ Oversized word budget block) :
    ∃ parts, splitBlock word block budget = .ok parts ∧ parts.flatMap words = words block := by
  rw [splitBlock]
  split
  · exact ⟨[block], rfl, by simp⟩
  · rename_i hover
    split
    · rename_i hfence
      split
      · exact ⟨[block], rfl, by simp⟩
      · rename_i hcap
        exact absurd ⟨Int.not_le.mp hover, hfence, Int.not_le.mp hcap⟩ h
    · refine ⟨_, rfl, ?_⟩
      rw [List.flatMap_assoc, ← flatMap_sentences]
      refine List.flatMap_congr fun sentence _ => ?_
      split
      · simp
      · exact flatMap_splitWords sentence budget

def keptWords (word : Char → Bool) (budget : Int) (block : List Char) : List (List Char) :=
  if Oversized word budget block then
    words (opener block) ++ words ((fenceMark (opener block)).getD []) ++
      (fenceBody block).flatMap words
  else words block

/-- The lines of an oversized fence can be fenced again, and there are some. -/
def Refenced (block : List Char) : Prop :=
  isFence (opener block) = true ∧ fenceBody block ≠ []

instance (block : List Char) : Decidable (Refenced block) := inferInstanceAs (Decidable (_ ∧ _))

theorem mem_words_splitLines {block : List Char} (h : Refenced block) (cap : Int) (w : List Char) :
    ∃ parts, splitLines word block cap = .ok parts ∧ parts ≠ [] ∧
      (w ∈ parts.flatMap words ↔
        w ∈ words (opener block) ++ words ((fenceMark (opener block)).getD []) ++
          (fenceBody block).flatMap words) := by
  obtain ⟨marker, hmarker⟩ := Option.isSome_iff_exists.mp h.1
  have hmark : fenceMark ((lines block).headD []) = some marker := hmarker
  rw [splitLines]
  simp only [hmark]
  refine ⟨_, rfl, ?_, ?_⟩
  · rw [ne_eq, List.map_eq_nil_iff]
    exact filling_ne_nil h.2
  · have hgroups := @flatten_filling _ (fun ls line =>
      decide (cap < estimateTokens word (unlines (ls ++ [line])))) (fenceBody block)
    obtain ⟨group, hgroup⟩ := List.exists_mem_of_ne_nil _ (@filling_ne_nil _ (fun ls line =>
      decide (cap < estimateTokens word (unlines (ls ++ [line])))) _ h.2)
    rw [show fenceMark (opener block) = some marker from hmark, Option.getD_some]
    revert hgroup hgroups
    generalize filling _ (fenceBody block) = groups
    rintro hgroups hgroup
    rw [← hgroups, List.flatMap_map]
    simp only [words_unlines, List.flatMap_append, List.flatMap_cons, List.flatMap_nil,
      List.append_nil, List.mem_flatMap, List.mem_append, List.mem_flatten]
    constructor
    · rintro ⟨ls, hls, (hw | ⟨line, hline, hw⟩) | hw⟩
      · exact .inl (.inl hw)
      · exact .inr ⟨line, ⟨ls, hls, hline⟩, hw⟩
      · exact .inl (.inr hw)
    · rintro ((hw | hw) | ⟨line, ⟨ls, hls, hline⟩, hw⟩)
      · exact ⟨group, hgroup, .inl (.inl hw)⟩
      · exact ⟨group, hgroup, .inr hw⟩
      · exact ⟨ls, hls, .inl (.inr ⟨line, hline, hw⟩)⟩

/-! ### Pieces and bodies -/

/-- A text without words has no tokens. -/
theorem estimateTokens_of_words (hblank : ∀ c, word c = true → isSpace c = false)
    {text : List Char} (h : words text = []) : estimateTokens word text = 0 := by
  have hspaces (s w : List Char) (h : MarkSdk.splitWords s w = []) :
      w = [] ∧ ∀ c ∈ s, isSpace c = true := by
    induction s generalizing w with
    | nil =>
        rw [MarkSdk.splitWords, pushWord] at h
        split at h
        · rename_i hempty
          exact ⟨List.isEmpty_iff.mp hempty, by simp⟩
        · cases h
    | cons c s ih =>
        rw [MarkSdk.splitWords] at h
        split at h
        · rename_i hc
          rw [pushWord] at h
          split at h
          · rename_i hempty
            exact ⟨List.isEmpty_iff.mp hempty, List.forall_mem_cons.mpr ⟨hc, (ih [] h).2⟩⟩
          · cases h
        · exact absurd (ih (c :: w) h).1 (List.cons_ne_nil c w)
  have hall := (hspaces text [] h).2
  clear h
  induction text with
  | nil => rfl
  | cons c text ih =>
      obtain ⟨hc, hall⟩ := List.forall_mem_cons.mp hall
      rw [estimateTokens_blank (word_of_isSpace hblank hc) hc, ih hall]

/-- The parts of a block, unless it is an oversized fence that cannot be fenced
again, and their words. -/
theorem blockPieces_ok (hblank : ∀ c, word c = true → isSpace c = false) {budget : Int}
    (hbudget : 0 < budget) {block : List Char}
    (h : Oversized word budget block → Refenced block) :
    ∃ pieces, blockPieces word budget block = .ok pieces ∧ pieces ≠ [] ∧
      ∀ w, (∃ p ∈ pieces, w ∈ words p.text) ↔ w ∈ keptWords word budget block := by
  have hparts : ∃ parts, splitBlock word block budget = .ok parts ∧ parts ≠ [] ∧
      ∀ w, w ∈ parts.flatMap words ↔ w ∈ keptWords word budget block := by
    by_cases hover : Oversized word budget block
    · have hlines := @mem_words_splitLines word block (h hover) (fenceCap budget)
      obtain ⟨hsize, hfence, hcap⟩ := hover
      obtain ⟨parts, hsplit, hne, -⟩ := hlines []
      refine ⟨parts, ?_, hne, fun w => ?_⟩
      · rw [splitBlock, if_neg (Int.not_le.mpr hsize), if_pos hfence,
          if_neg (Int.not_le.mpr hcap), hsplit]
      · obtain ⟨parts', hsplit', -, hmem⟩ := hlines w
        rw [hsplit] at hsplit'
        cases hsplit'
        rw [hmem, keptWords, if_pos ⟨hsize, hfence, hcap⟩]
    · obtain ⟨parts, hsplit, hwords⟩ := flatMap_splitBlock hover
      refine ⟨parts, hsplit, ?_, fun w => by rw [hwords, keptWords, if_neg hover]⟩
      rintro rfl
      rw [List.flatMap_nil] at hwords
      have hzero := estimateTokens_of_words hblank hwords.symm
      rw [splitBlock, hzero, if_pos (by omega)] at hsplit
      cases hsplit
  obtain ⟨parts, hsplit, hne, hwords⟩ := hparts
  obtain ⟨part, parts, rfl⟩ := List.exists_cons_of_ne_nil hne
  refine ⟨_, by rw [blockPieces, hsplit]; rfl, List.cons_ne_nil _ _, fun w => ?_⟩
  rw [← hwords, List.mem_flatMap]
  simp

/-- Every other block raises. -/
theorem blockPieces_error {budget : Int} {block : List Char} (hover : Oversized word budget block)
    (h : ¬ Refenced block) (pieces : List Piece) : blockPieces word budget block ≠ .ok pieces := by
  obtain ⟨hsize, hfence, hcap⟩ := hover
  have hsplit : splitBlock word block budget = splitLines word block (fenceCap budget) := by
    rw [splitBlock, if_neg (Int.not_le.mpr hsize), if_pos hfence, if_neg (Int.not_le.mpr hcap)]
  rw [blockPieces, hsplit, splitLines]
  cases hmarker : fenceMark ((lines block).headD []) with
  | none => rintro ⟨⟩
  | some marker =>
      have hbody : fenceBody block = [] := by
        by_contra hbody
        exact h ⟨by rw [isFence, opener, hmarker]; rfl, hbody⟩
      rw [hbody]
      rintro ⟨⟩

/-- The pieces of a body are of the list. -/
theorem mem_of_mem_packing {full : List Piece → Piece → Bool} {budget overlap : Int}
    {current pieces : List Piece} :
    ∀ body ∈ packing full (carried word budget overlap) current pieces,
      ∀ p ∈ body, p ∈ current ++ pieces := by
  induction pieces generalizing current with
  | nil =>
      intro body hbody p hp
      rw [packing] at hbody
      split at hbody
      · cases hbody
      · rw [List.mem_singleton.mp hbody] at hp
        simpa using hp
  | cons x pieces ih =>
      intro body hbody p hp
      rw [packing] at hbody
      split at hbody
      · obtain rfl | hbody := List.mem_cons.mp hbody
        · exact List.mem_append_left _ hp
        · have hmem := ih body hbody p hp
          simp only [List.mem_append, List.mem_cons, List.not_mem_nil, or_false] at hmem ⊢
          obtain (hcarried | rfl) | hmem := hmem
          · exact .inl ((tail_spec current overlap (budget - x.cost word)).1.subset hcarried)
          · exact .inr (.inl rfl)
          · exact .inr (.inr hmem)
      · have hmem := ih body hbody p hp
        rwa [List.append_assoc] at hmem

/-- The bodies have the words of the pieces. -/
theorem mem_words_packPieces (hblank : ∀ c, word c = true → isSpace c = false)
    (budget overlap : Int) (pieces : List Piece) (w : List Char) :
    (∃ body ∈ packPieces word budget overlap pieces, w ∈ words body) ↔
      ∃ p ∈ pieces, w ∈ words p.text := by
  constructor
  · rintro ⟨body, hbody, hw⟩
    rw [packPieces_eq] at hbody
    obtain ⟨group, hgroup, rfl⟩ := List.mem_map.mp hbody
    rw [words_join, List.mem_flatMap] at hw
    obtain ⟨p, hp, hw⟩ := hw
    exact ⟨p, mem_of_mem_packing group hgroup p hp, hw⟩
  · rintro ⟨p, hp, hw⟩
    obtain ⟨parts, hparts⟩ := bodies_packPieces hblank budget overlap pieces
    rw [← hparts.lossless, List.mem_flatten] at hp
    obtain ⟨new, hnew, hp⟩ := hp
    obtain ⟨part, hpart, rfl⟩ := List.mem_map.mp hnew
    refine ⟨join (part.1 ++ part.2), ?_, ?_⟩
    · rw [hparts.bodies]
      exact List.mem_map_of_mem hpart
    · rw [words_join, List.mem_flatMap]
      exact ⟨p, List.mem_append_right _ hp, hw⟩

theorem packPieces_ne_nil (hblank : ∀ c, word c = true → isSpace c = false) (budget overlap : Int)
    {pieces : List Piece} (h : pieces ≠ []) : packPieces word budget overlap pieces ≠ [] := by
  intro hnil
  obtain ⟨parts, hparts⟩ := bodies_packPieces hblank budget overlap pieces
  have hnone := hparts.bodies
  rw [hnil, eq_comm, List.map_eq_nil_iff] at hnone
  have hall := hparts.lossless
  rw [hnone] at hall
  exact h hall.symm

/-- What a section's blocks give: bodies with their words, or nothing where an
oversized fence cannot be fenced again. -/
theorem pack_ok (hblank : ∀ c, word c = true → isSpace c = false) {budget : Int}
    (hbudget : 0 < budget) (overlap : Int) {blocks : List (List Char)}
    (h : ∀ block ∈ blocks, Oversized word budget block → Refenced block) :
    ∃ bodies, pack word blocks budget overlap = .ok bodies ∧ (blocks ≠ [] → bodies ≠ []) ∧
      ∀ w, (∃ body ∈ bodies, w ∈ words body) ↔
        ∃ block ∈ blocks, w ∈ keptWords word budget block := by
  have hblocks := fun block hblock => blockPieces_ok hblank hbudget (h block hblock)
  obtain ⟨pieces, hpieces⟩ := exists_mapM_ok_iff.mpr fun block hblock =>
    (hblocks block hblock).imp fun _ hp => hp.1
  obtain ⟨hfrom, hto⟩ := mem_of_mapM_eq_ok hpieces
  refine ⟨packPieces word budget overlap pieces.flatten, ?_, fun hne => ?_, fun w => ?_⟩
  · rw [pack, hpieces]
    rfl
  · obtain ⟨block, hblock⟩ := List.exists_mem_of_ne_nil blocks hne
    obtain ⟨ps, hps, hok⟩ := hto block hblock
    obtain ⟨ps', hok', hne', -⟩ := hblocks block hblock
    rw [hok] at hok'
    cases hok'
    obtain ⟨p, hp⟩ := List.exists_mem_of_ne_nil ps hne'
    exact packPieces_ne_nil hblank budget overlap
      (List.ne_nil_of_mem (List.mem_flatten.mpr ⟨ps, hps, hp⟩))
  · rw [mem_words_packPieces hblank]
    constructor
    · rintro ⟨p, hp, hw⟩
      obtain ⟨ps, hps, hp⟩ := List.mem_flatten.mp hp
      obtain ⟨block, hblock, hok⟩ := hfrom ps hps
      obtain ⟨ps', hok', -, hmem⟩ := hblocks block hblock
      rw [hok] at hok'
      cases hok'
      exact ⟨block, hblock, (hmem w).mp ⟨p, hp, hw⟩⟩
    · rintro ⟨block, hblock, hw⟩
      obtain ⟨ps, hps, hok⟩ := hto block hblock
      obtain ⟨ps', hok', -, hmem⟩ := hblocks block hblock
      rw [hok] at hok'
      cases hok'
      obtain ⟨p, hp, hw⟩ := (hmem w).mpr hw
      exact ⟨p, List.mem_flatten.mpr ⟨ps, hps, hp⟩, hw⟩

theorem refenced_of_pack_ok {budget overlap : Int} {blocks bodies : List (List Char)}
    (h : pack word blocks budget overlap = .ok bodies) :
    ∀ block ∈ blocks, Oversized word budget block → Refenced block := by
  intro block hblock hover
  by_contra hbad
  rw [pack] at h
  cases hpieces : blocks.mapM (blockPieces word budget) with
  | error e =>
      rw [hpieces] at h
      cases h
  | ok pieces =>
      obtain ⟨ps, hps⟩ := exists_mapM_ok_iff.mp ⟨pieces, hpieces⟩ block hblock
      exact blockPieces_error hover hbad ps hps

end MarkSdk.Chunking
