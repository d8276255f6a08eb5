import MarkSdk.Chunking.Sections
import MarkSdk.Chunking.Words

/-!
What the chunks of a document hold.

Each line that is no heading belongs to a section, which holds its words between
those of the lines before and behind it and has the names of the headings that
are open at the line in its path (`placed_sections`).
Packing keeps them, except for the lines of an oversized code fence that look
like fences themselves; so a document is complete in its chunks exactly when
these lines hold no word of their own (`chunkText_complete_iff`).
-/

namespace MarkSdk.Chunking

open Lib

/-! ### Headings of the lines -/

/-- The fence that is open behind a line. -/
def fenceStep (mark : Option (List Char)) (line : List Char) : Option (List Char) :=
  match mark with
  | some mark => if mark.isPrefixOf (stripChars isSpace line) then none else some mark
  | none => fenceMark line

def fenceAfter (ls : List (List Char)) : Option (List Char) := ls.foldl fenceStep none

/-- The heading that a line is: fenced lines and fences are none. -/
def lineHeading (mark : Option (List Char)) (line : List Char) : Option Heading :=
  if mark = none ∧ fenceMark line = none then heading line else none

def headingAt (kind : String) (ls : List (List Char)) (i : Nat) : Option Heading :=
  if kind = "code" then none else ls[i]?.bind fun line => lineHeading (fenceAfter (ls.take i)) line

/-- Line `j` is under the heading in line `i`, directly or in a nested section. -/
structure Under (headings : Nat → Option Heading) (i j : Nat) (h : Heading) : Prop where
  heading : headings i = some h
  before : i < j
  nested : ∀ k, i < k → k < j → ∀ g, headings k = some g → h.level < g.level

/-! ### Parts of a text

A scan that goes through the lines keeps the closed parts and the words of the
open one. Where each line either goes on with the open part or closes it first,
a line belongs to the part that is open behind it.
-/

section Parts

variable {W : Type}

/-- The words of the first `n` lines that are in part `k`. -/
def gathered (home : Nat → Nat) (lineWords : Nat → List W) (n k : Nat) : List W :=
  (List.range n).flatMap fun j => if home j = k then lineWords j else []

theorem mem_gathered {home : Nat → Nat} {lineWords : Nat → List W} {n k : Nat} {w : W} :
    w ∈ gathered home lineWords n k ↔ ∃ j, j < n ∧ home j = k ∧ w ∈ lineWords j := by
  simp only [gathered, List.mem_flatMap, List.mem_range]
  refine exists_congr fun j => and_congr_right fun _ => ?_
  split
  · rename_i hhome
    simp [hhome]
  · rename_i hhome
    simp [hhome]

theorem map_gathered {V : Type} (g : W → V) (home : Nat → Nat) (lineWords : Nat → List W)
    (n k : Nat) :
    (gathered home lineWords n k).map g = gathered home (fun j => (lineWords j).map g) n k := by
  rw [gathered, gathered, List.map_flatMap]
  congr 1
  funext j
  split <;> rfl

/-- The open part is closed, unless it is empty. -/
def Ends (done : List (List W)) (part : List W) (done' : List (List W)) : Prop :=
  done' = done ++ [part] ∨ done' = done ∧ part = []

/-- The words go to the open part, or to a new one. -/
def Advances (done : List (List W)) (part : List W) (done' : List (List W))
    (part' words : List W) : Prop :=
  done' = done ∧ part' = part ++ words ∨ Ends done part done' ∧ part' = words

theorem Ends.getElem? {done done' : List (List W)} {part : List W} (h : Ends done part done')
    (k : Nat) : done'[k]?.getD [] = (done ++ [part])[k]?.getD [] := by
  obtain rfl | ⟨rfl, rfl⟩ := h
  · rfl
  · obtain hk | hk := Nat.lt_or_ge k done'.length
    · rw [List.getElem?_append_left hk]
    · rw [List.getElem?_append_right hk, List.getElem?_eq_none hk]
      cases k - done'.length <;> rfl

theorem Advances.getElem? {done done' : List (List W)} {part part' words : List W}
    (h : Advances done part done' part' words) (k : Nat) :
    (done' ++ [part'])[k]?.getD [] =
      (done ++ [part])[k]?.getD [] ++ if done'.length = k then words else [] := by
  obtain ⟨rfl, rfl⟩ | ⟨hends, rfl⟩ := h
  · obtain hk | rfl | hk := Nat.lt_trichotomy k done'.length
    · rw [List.getElem?_append_left hk, List.getElem?_append_left hk, if_neg (by omega),
        List.append_nil]
    · rw [List.getElem?_concat_length, List.getElem?_concat_length, if_pos rfl]
      rfl
    · rw [List.getElem?_eq_none (by simp; omega), List.getElem?_eq_none (by simp; omega),
        if_neg (by omega)]
      rfl
  · rw [← hends.getElem? k]
    obtain hk | rfl | hk := Nat.lt_trichotomy k done'.length
    · rw [List.getElem?_append_left hk, if_neg (by omega), List.append_nil]
    · rw [List.getElem?_concat_length, List.getElem?_eq_none (Nat.le_refl _), if_pos rfl]
      rfl
    · rw [List.getElem?_eq_none (by simp; omega), List.getElem?_eq_none (by omega),
        if_neg (by omega)]
      rfl

theorem Advances.length_le {done done' : List (List W)} {part part' words : List W}
    (h : Advances done part done' part' words) : done.length ≤ done'.length := by
  obtain ⟨rfl, -⟩ | ⟨rfl | ⟨rfl, -⟩, -⟩ := h
  · exact Nat.le_refl _
  · simp
  · exact Nat.le_refl _

section Scanned

variable {done : Nat → List (List W)} {part lineWords : Nat → List W} {n : Nat}

/-- The parts that a scan leaves have the words of their lines. -/
theorem gathered_eq (hdone : done 0 = []) (hpart : part 0 = [])
    (hstep : ∀ j < n, Advances (done j) (part j) (done (j + 1)) (part (j + 1)) (lineWords j))
    {all : List (List W)} (hends : Ends (done n) (part n) all) (k : Nat) :
    gathered (fun j => (done (j + 1)).length) lineWords n k = all[k]?.getD [] := by
  have hrun : ∀ m ≤ n, gathered (fun j => (done (j + 1)).length) lineWords m k =
      (done m ++ [part m])[k]?.getD [] := by
    intro m hm
    induction m with
    | zero =>
        rw [hdone, hpart]
        cases k <;> rfl
    | succ m ih =>
        rw [(hstep m hm).getElem? k, ← ih (Nat.le_of_succ_le hm), gathered, List.range_succ,
          List.flatMap_append, List.flatMap_singleton]
        rfl
  rw [hends.getElem? k, hrun n (Nat.le_refl n)]

theorem length_done_le
    (hstep : ∀ j < n, Advances (done j) (part j) (done (j + 1)) (part (j + 1)) (lineWords j))
    {i j : Nat} (hij : i ≤ j) (hj : j ≤ n) : (done i).length ≤ (done j).length := by
  induction j, hij using Nat.le_induction with
  | base => exact Nat.le_refl _
  | succ j _ ih => exact (ih (Nat.le_of_succ_le hj)).trans (hstep j hj).length_le

end Scanned

end Parts

/-! ### Lines and their sections -/

def lineWords (kind : String) (ls : List (List Char)) (j : Nat) : List (List Char) :=
  if headingAt kind ls j = none then (ls[j]?.map words).getD [] else []

theorem mem_lineWords {kind : String} {ls : List (List Char)} {j : Nat} {w : List Char} :
    w ∈ lineWords kind ls j ↔
      ∃ line, ls[j]? = some line ∧ headingAt kind ls j = none ∧ w ∈ words line := by
  rw [lineWords]
  split
  · rename_i hnone
    cases ls[j]? <;> simp [hnone]
  · rename_i hsome
    simp [hsome]

def Section.words (s : Section) : List (List Char) := s.blocks.flatMap Chunking.words

/-- Where the lines are: a section holds the words of its lines, one after the
other, and has the names of the headings above them in its path. -/
structure Placed (kind : String) (ls : List (List Char)) (sections : List Section)
    (home : Nat → Nat) : Prop where
  inOrder : ∀ i j, i ≤ j → j < ls.length → home i ≤ home j
  held : ∀ k s, sections[k]? = some s →
    s.words = gathered home (lineWords kind ls) ls.length k
  under : ∀ j, lineWords kind ls j ≠ [] → ∃ s, sections[home j]? = some s ∧
    ∀ i h, Under (headingAt kind ls) i j h → h.name ∈ s.headingPath

section Placed

variable {kind : String} {ls : List (List Char)} {sections : List Section} {home : Nat → Nat}

theorem Placed.line_of_word (h : Placed kind ls sections home) {s : Section} (hs : s ∈ sections)
    {block : List Char} (hblock : block ∈ s.blocks) {w : List Char} (hw : w ∈ words block) :
    ∃ j line, ls[j]? = some line ∧ headingAt kind ls j = none ∧ w ∈ words line := by
  obtain ⟨k, hk⟩ := List.getElem?_of_mem hs
  have hheld : w ∈ s.words := List.mem_flatMap.mpr ⟨block, hblock, hw⟩
  rw [h.held k s hk, mem_gathered] at hheld
  obtain ⟨j, -, -, hj⟩ := hheld
  exact ⟨j, mem_lineWords.mp hj⟩

theorem Placed.word_of_line (h : Placed kind ls sections home) {j : Nat} {w : List Char}
    (hw : w ∈ lineWords kind ls j) : ∃ s ∈ sections, ∃ block ∈ s.blocks, w ∈ words block := by
  obtain ⟨s, hs, -⟩ := h.under j (List.ne_nil_of_mem hw)
  obtain ⟨line, hline, -⟩ := mem_lineWords.mp hw
  have hheld : w ∈ s.words := by
    rw [h.held _ s hs, mem_gathered]
    exact ⟨j, (List.getElem?_eq_some_iff.mp hline).1, rfl, hw⟩
  exact ⟨s, List.mem_of_getElem? hs, List.mem_flatMap.mp hheld⟩

end Placed

def Section.labelled (s : Section) : List (List (List Char) × List Char) :=
  s.words.map (s.headingPath, ·)

namespace Scan

variable {root : List (List Char)} {s : Scan} {line : List Char}

/-- The words that are in no section yet. -/
def pending (s : Scan) : List (List Char) :=
  s.blocks.flatMap words ++ s.paragraph.flatMap words ++
    (s.fence.map fun f => f.1.flatMap words).getD []

def labelled (root : List (List Char)) (s : Scan) : List (List (List Char) × List Char) :=
  s.pending.map (s.path root, ·)

/-- An open fence has ended the paragraph. -/
def Closed (s : Scan) : Prop := s.fence ≠ none → s.paragraph = []

theorem endParagraph_spec (s : Scan) :
    s.endParagraph.sections = s.sections ∧ s.endParagraph.stack = s.stack ∧
      s.endParagraph.fence = s.fence ∧ s.endParagraph.paragraph = [] ∧
        s.endParagraph.blocks.flatMap words =
          s.blocks.flatMap words ++ s.paragraph.flatMap words := by
  rw [endParagraph]
  split
  · refine ⟨rfl, rfl, rfl, rfl, ?_⟩
    rw [List.flatMap_append, List.flatMap_singleton, words_strip isSpace (fun _ h => h),
      words_unlines]
  · rename_i hempty
    rw [not_not] at hempty
    simp [hempty]

theorem labelled_endParagraph : s.endParagraph.labelled root = s.labelled root := by
  obtain ⟨-, hstack, hfence, hparagraph, hblocks⟩ := s.endParagraph_spec
  rw [labelled, labelled, pending, pending, path, path, hstack, hfence, hparagraph, hblocks]
  simp

/-- The blocks become a section. -/
theorem ends_endSection (hparagraph : s.paragraph = []) (hfence : s.fence = none) :
    Ends (s.sections.map Section.labelled) (s.labelled root)
        ((s.endSection root).sections.map Section.labelled) ∧
      (s.endSection root).blocks = [] ∧ (s.endSection root).paragraph = [] ∧
        (s.endSection root).fence = none := by
  rw [endSection]
  split
  · refine ⟨.inl ?_, rfl, hparagraph, hfence⟩
    simp [labelled, pending, Section.labelled, Section.words, hparagraph, hfence]
  · rename_i hempty
    rw [not_not] at hempty
    refine ⟨.inr ⟨rfl, ?_⟩, hempty, hparagraph, hfence⟩
    simp [labelled, pending, hparagraph, hfence, hempty]

theorem fence_step :
    (s.step root line).fence.map Prod.snd = fenceStep (s.fence.map Prod.snd) line := by
  rw [step]
  cases hfence : s.fence with
  | some f =>
      obtain ⟨fence, mark⟩ := f
      simp only [fenceStep, Option.map_some]
      split <;> rfl
  | none =>
      obtain ⟨-, -, hend, -⟩ := s.endParagraph_spec
      simp only [fenceStep, Option.map_none]
      cases hmark : fenceMark line with
      | some mark => rfl
      | none =>
          simp only
          split
          · rw [endSection]
            split <;> simp only [hend, hfence, Option.map_none]
          · split
            · rfl
            · rw [hend, hfence]
              rfl

theorem closed_step (h : s.Closed) : (s.step root line).Closed := by
  obtain ⟨-, -, hend, hparagraph, -⟩ := s.endParagraph_spec
  rw [step]
  cases hfence : s.fence with
  | some f =>
      obtain ⟨fence, mark⟩ := f
      have hempty : s.paragraph = [] := h (by rw [hfence]; exact Option.some_ne_none _)
      simp only
      split
      · exact fun _ => hempty
      · exact fun _ => hempty
  | none =>
      cases hmark : fenceMark line with
      | some mark => exact fun _ => hparagraph
      | none =>
          simp only
          split
          · rw [endSection]
            split <;> exact fun _ => hparagraph
          · split
            · exact fun hopen => absurd rfl hopen
            · exact fun _ => hparagraph

/-- A heading goes on the stack, and no other line changes it. -/
theorem stack_step :
    (s.step root line).stack =
      ((lineHeading (s.fence.map Prod.snd) line).map fun h =>
        s.stack.filter (fun g => g.level < h.level) ++ [h]).getD s.stack := by
  obtain ⟨-, hstack, -⟩ := s.endParagraph_spec
  rw [step, lineHeading]
  cases hfence : s.fence with
  | some f =>
      obtain ⟨fence, mark⟩ := f
      simp only [Option.map_some]
      split <;> simp
  | none =>
      cases hmark : fenceMark line with
      | some mark => simpa using hstack
      | none =>
          simp only [Option.map_none, and_self, if_true]
          cases hheading : heading line with
          | some h =>
              simp only [Option.map_some, Option.getD_some, endSection]
              split <;> simp only [hstack]
          | none =>
              simp only [Option.map_none, Option.getD_none]
              split
              · rfl
              · exact hstack

/-- A line adds its words under the open headings, unless it is a heading, which
ends the section. -/
theorem advances_step (h : s.Closed) :
    Advances (s.sections.map Section.labelled) (s.labelled root)
      ((s.step root line).sections.map Section.labelled) ((s.step root line).labelled root)
      (if lineHeading (s.fence.map Prod.snd) line = none then (words line).map (s.path root, ·)
        else []) := by
  rw [step, lineHeading]
  cases hfence : s.fence with
  | some f =>
      obtain ⟨fence, mark⟩ := f
      have hempty : s.paragraph = [] := h (by rw [hfence]; exact Option.some_ne_none _)
      simp only [Option.map_some]
      split
      · exact .inl ⟨rfl, by simp [labelled, pending, path, hempty, hfence, words_unlines]⟩
      · exact .inl ⟨rfl, by simp [labelled, pending, path, hempty, hfence]⟩
  | none =>
      obtain ⟨hsections, hstack, hend, hparagraph, hblocks⟩ := s.endParagraph_spec
      cases hmark : fenceMark line with
      | some mark =>
          refine .inl ⟨by rw [hsections], ?_⟩
          simp [labelled, pending, path, hstack, hparagraph, hblocks, hfence]
      | none =>
          simp only [Option.map_none, and_self, if_true]
          cases hheading : heading line with
          | some g =>
              obtain ⟨hends, hblocks', hparagraph', hfence'⟩ :=
                @ends_endSection root _ hparagraph (hend.trans hfence)
              rw [labelled_endParagraph, hsections] at hends
              refine .inr ⟨hends, ?_⟩
              simp [labelled, pending, hblocks', hparagraph', hfence']
          | none =>
              simp only [if_true]
              split
              · exact .inl ⟨rfl, by simp [labelled, pending, path, hfence]⟩
              · rename_i hblank
                rw [not_not] at hblank
                have hnone := words_strip isSpace (fun _ h => h) line
                rw [hblank, words_nil] at hnone
                refine .inl ⟨by rw [hsections], ?_⟩
                rw [labelled_endParagraph, ← hnone, List.map_nil, List.append_nil]

theorem ends_finish (h : s.Closed) :
    Ends (s.sections.map Section.labelled) (s.labelled root)
      ((s.finish root).map Section.labelled) := by
  have hfence : s.endFence.fence = none ∧ s.endFence.sections = s.sections ∧
      s.endFence.labelled root = s.labelled root := by
    rw [endFence]
    cases hopen : s.fence with
    | none => exact ⟨hopen, rfl, rfl⟩
    | some f =>
        have hempty : s.paragraph = [] := h (by rw [hopen]; exact Option.some_ne_none _)
        exact ⟨rfl, rfl, by simp [labelled, pending, path, hempty, hopen, words_unlines]⟩
  obtain ⟨hsections, -, hend, hparagraph, -⟩ := s.endFence.endParagraph_spec
  have hends := (@ends_endSection root _ hparagraph (hend.trans hfence.1)).1
  rw [labelled_endParagraph, hsections, hfence.2.1, hfence.2.2] at hends
  exact hends

/-! The whole document. -/

theorem closed_foldl (root : List (List Char)) (ls : List (List Char)) :
    (ls.foldl (step root) empty).Closed := by
  have hrun (ls : List (List Char)) {s : Scan} (h : s.Closed) : (ls.foldl (step root) s).Closed := by
    induction ls generalizing s with
    | nil => exact h
    | cons line ls ih => exact ih (closed_step h)
  exact hrun ls fun _ => rfl

theorem fence_foldl (root : List (List Char)) (ls : List (List Char)) :
    (ls.foldl (step root) empty).fence.map Prod.snd = fenceAfter ls := by
  have hrun (ls : List (List Char)) (s : Scan) :
      (ls.foldl (step root) s).fence.map Prod.snd = ls.foldl fenceStep (s.fence.map Prod.snd) := by
    induction ls generalizing s with
    | nil => rfl
    | cons line ls ih => rw [List.foldl_cons, List.foldl_cons, ih, fence_step]
  exact hrun ls empty

/-- The scan in front of a line. -/
def before (root : List (List Char)) (ls : List (List Char)) (i : Nat) : Scan :=
  (ls.take i).foldl (step root) empty

variable {ls : List (List Char)} {i : Nat}

theorem before_succ (hline : ls[i]? = some line) :
    before root ls (i + 1) = (before root ls i).step root line := by
  rw [before, before, List.take_add_one, hline, Option.toList_some, List.foldl_append]
  rfl

theorem headingAt_of_line {kind : String} (hkind : kind ≠ "code") (hline : ls[i]? = some line) :
    headingAt kind ls i = lineHeading ((before root ls i).fence.map Prod.snd) line := by
  rw [headingAt, if_neg hkind, hline, before, fence_foldl]
  rfl

/-- Headings that are open at a line are on the stack. -/
theorem mem_stack_before {kind : String} (hkind : kind ≠ "code") {j : Nat} (hj : j ≤ ls.length)
    {h : Heading} (hunder : Under (headingAt kind ls) i j h) : h ∈ (before root ls j).stack := by
  induction j with
  | zero => exact absurd hunder.before (Nat.not_lt_zero i)
  | succ j ih =>
      have hline : ls[j]? = some ls[j] := List.getElem?_eq_getElem hj
      rw [before_succ hline, stack_step, ← headingAt_of_line hkind hline]
      obtain hij | rfl := Nat.lt_succ_iff_lt_or_eq.mp hunder.before
      · have hbefore := ih (Nat.le_of_succ_le hj) ⟨hunder.heading, hij, fun k hik hkj =>
          hunder.nested k hik (Nat.lt_succ_of_lt hkj)⟩
        cases hhere : headingAt kind ls j with
        | none => exact hbefore
        | some g =>
            have hlevel := hunder.nested j hij (Nat.lt_succ_self j) g hhere
            exact List.mem_append_left _ (List.mem_filter.mpr ⟨hbefore, decide_eq_true hlevel⟩)
      · rw [hunder.heading]
        exact List.mem_append_right _ (List.mem_singleton_self h)

/-- The sections that are closed in front of a line. -/
def closedBefore (root : List (List Char)) (ls : List (List Char)) (j : Nat) :
    List (List (List (List Char) × List Char)) :=
  (before root ls j).sections.map Section.labelled

/-- The words of a line that is no heading, with the path of the open section. -/
def labelledLine (kind : String) (root : List (List Char)) (ls : List (List Char)) (j : Nat) :
    List (List (List Char) × List Char) :=
  (lineWords kind ls j).map ((before root ls j).path root, ·)

theorem advances_before {kind : String} (hkind : kind ≠ "code") {j : Nat} (hj : j < ls.length) :
    Advances (closedBefore root ls j) ((before root ls j).labelled root)
      (closedBefore root ls (j + 1)) ((before root ls (j + 1)).labelled root)
      (labelledLine kind root ls j) := by
  have hline : ls[j]? = some ls[j] := List.getElem?_eq_getElem hj
  have hhead : headingAt kind ls j = lineHeading ((before root ls j).fence.map Prod.snd) ls[j] :=
    headingAt_of_line hkind hline
  have hclosed : (before root ls j).Closed := closed_foldl root (ls.take j)
  have hadvances := @advances_step root _ ls[j] hclosed
  simp only [labelledLine, closedBefore, lineWords, before_succ hline, hhead, hline]
  split
  · rename_i hnone
    rwa [if_pos hnone] at hadvances
  · rename_i hsome
    rwa [if_neg hsome] at hadvances

theorem gathered_markdownSections (ls : List (List Char)) (title : Option (List Char))
    {kind : String} (hkind : kind ≠ "code") (k : Nat) :
    gathered (fun j => (closedBefore (markdownRoot ls title) ls (j + 1)).length)
        (labelledLine kind (markdownRoot ls title) ls) ls.length k =
      ((markdownSections ls title).map Section.labelled)[k]?.getD [] := by
  have hends : Ends (closedBefore (markdownRoot ls title) ls ls.length)
      ((before (markdownRoot ls title) ls ls.length).labelled (markdownRoot ls title))
      ((markdownSections ls title).map Section.labelled) := by
    rw [closedBefore, before, List.take_length]
    exact ends_finish (closed_foldl (markdownRoot ls title) ls)
  exact @gathered_eq _ (closedBefore (markdownRoot ls title) ls)
    (fun j => (before (markdownRoot ls title) ls j).labelled (markdownRoot ls title)) _ _ rfl rfl
    (fun j hj => advances_before hkind hj) _ hends k

end Scan

theorem placed_markdownSections (ls : List (List Char)) (title : Option (List Char))
    {kind : String} (hkind : kind ≠ "code") :
    ∃ home, Placed kind ls (markdownSections ls title) home := by
  let root := markdownRoot ls title
  have hgathered := Scan.gathered_markdownSections ls title hkind
  refine ⟨fun j => (Scan.closedBefore root ls (j + 1)).length, ?_, ?_, ?_⟩
  · intro i j hij hj
    exact @length_done_le _ (Scan.closedBefore root ls)
      (fun m => (Scan.before root ls m).labelled root) _ _
      (fun m hm => Scan.advances_before hkind hm) _ _ (Nat.succ_le_succ hij) hj
  · intro k s hs
    have hk := congrArg (List.map Prod.snd) (hgathered k)
    rw [map_gathered, List.getElem?_map, hs] at hk
    simpa [Scan.labelledLine, Section.labelled, Function.comp_def] using hk.symm
  · intro j hwords
    obtain ⟨w, hw⟩ := List.exists_mem_of_ne_nil _ hwords
    have hj : j < ls.length := by
      obtain ⟨line, hline, -⟩ := mem_lineWords.mp hw
      exact (List.getElem?_eq_some_iff.mp hline).1
    have hmem : ((Scan.before root ls j).path root, w) ∈
        gathered (fun j => (Scan.closedBefore root ls (j + 1)).length)
          (Scan.labelledLine kind root ls) ls.length (Scan.closedBefore root ls (j + 1)).length :=
      mem_gathered.mpr ⟨j, hj, rfl, List.mem_map_of_mem hw⟩
    rw [hgathered, List.getElem?_map] at hmem
    cases hs : (markdownSections ls title)[(Scan.closedBefore root ls (j + 1)).length]? with
    | none => simp [hs] at hmem
    | some s =>
        -- the section has the path of the line
        have hpath : s.headingPath = (Scan.before root ls j).path root := by
          rw [hs] at hmem
          obtain ⟨w', -, heq⟩ := List.mem_map.mp hmem
          exact (Prod.mk.inj heq).1
        refine ⟨s, rfl, fun i h hunder => ?_⟩
        rw [hpath]
        exact List.mem_append_right _ (List.mem_map_of_mem
          (Scan.mem_stack_before hkind (Nat.le_of_lt hj) hunder))

/-! ### Code -/

section

variable {word : Char → Bool}

theorem ends_codeSection (root : List (List Char)) (s : CodeScan) :
    Ends (s.sections.map Section.words) (s.current.flatMap words)
      ((s.endSection root).map Section.words) := by
  rw [CodeScan.endSection]
  split
  · have hstrip := words_strip (fun c => c = '\n')
      (fun c hc => by rw [of_decide_eq_true hc]; rfl) (unlines s.current)
    left
    simp [Section.words, hstrip, words_unlines]
  · rename_i hblank
    rw [not_not] at hblank
    have hnone := words_strip isSpace (fun _ h => h) (unlines s.current)
    rw [hblank, words_nil, words_unlines] at hnone
    exact .inr ⟨rfl, hnone.symm⟩

theorem advances_codeStep (root : List (List Char)) (s : CodeScan) (line : List Char) :
    Advances (s.sections.map Section.words) (s.current.flatMap words)
      ((s.step word root line).sections.map Section.words)
      ((s.step word root line).current.flatMap words) (words line) := by
  rw [CodeScan.step]
  split
  · exact .inr ⟨ends_codeSection root s, by simp⟩
  · exact .inl ⟨rfl, by simp⟩

theorem placed_codeSections (ls : List (List Char)) (title : Option (List Char)) :
    ∃ home, Placed "code" ls (codeSections word ls title) home := by
  let root := (title.filter fun t => t ≠ []).toList
  let before (j : Nat) : CodeScan := (ls.take j).foldl (CodeScan.step word root) ⟨[], [], []⟩
  let done (j : Nat) := (before j).sections.map Section.words
  have hnone (j : Nat) : headingAt "code" ls j = none := if_pos rfl
  have hstep : ∀ j < ls.length, Advances (done j) ((before j).current.flatMap words)
      (done (j + 1)) ((before (j + 1)).current.flatMap words) (lineWords "code" ls j) := by
    intro j hj
    have hline : ls[j]? = some ls[j] := List.getElem?_eq_getElem hj
    have hnext : before (j + 1) = (before j).step word root ls[j] := by
      simp only [before, List.take_add_one, hline, Option.toList_some, List.foldl_append]
      rfl
    simp only [done, hnext, lineWords, hnone, hline]
    exact advances_codeStep root (before j) ls[j]
  have hends : Ends (done ls.length) ((before ls.length).current.flatMap words)
      ((codeSections word ls title).map Section.words) := by
    have hall : before ls.length = ls.foldl (CodeScan.step word root) ⟨[], [], []⟩ := by
      simp only [before, List.take_length]
    simp only [done, hall]
    exact ends_codeSection root _
  have hgathered (k : Nat) : gathered (fun j => (done (j + 1)).length) (lineWords "code" ls)
      ls.length k = ((codeSections word ls title).map Section.words)[k]?.getD [] :=
    gathered_eq rfl rfl hstep hends k
  refine ⟨fun j => (done (j + 1)).length, ?_, ?_, ?_⟩
  · intro i j hij hj
    exact length_done_le hstep (Nat.succ_le_succ hij) hj
  · intro k s hs
    rw [hgathered, List.getElem?_map, hs]
    rfl
  · intro j hwords
    obtain ⟨w, hw⟩ := List.exists_mem_of_ne_nil _ hwords
    obtain ⟨line, hline, -⟩ := mem_lineWords.mp hw
    have hmem : w ∈ gathered (fun j => (done (j + 1)).length) (lineWords "code" ls) ls.length
        (done (j + 1)).length :=
      mem_gathered.mpr ⟨j, (List.getElem?_eq_some_iff.mp hline).1, rfl, hw⟩
    rw [hgathered, List.getElem?_map] at hmem
    cases hs : (codeSections word ls title)[(done (j + 1)).length]? with
    | none => simp [hs] at hmem
    | some s =>
        refine ⟨s, rfl, fun i h hunder => ?_⟩
        exact absurd (hunder.heading.symm.trans (hnone i)) (Option.some_ne_none h)

/-! ### Chunks -/

/-- The sections of either kind. -/
theorem placed_sections (text : List Char) (title : Option (List Char)) (kind : String) :
    ∃ home, Placed kind (documentLines text) (sections word text title kind) home := by
  by_cases hkind : kind = "code"
  · subst hkind
    rw [sections, if_pos rfl]
    exact placed_codeSections (documentLines text) title
  · rw [sections, if_neg hkind]
    exact placed_markdownSections (documentLines text) title hkind

/-- The chunks hold every word of the lines that are no headings, and each line
has a section, with the headings above it in the path, of which chunks with this
path are made. -/
structure Complete (word : Char → Bool) (text : List Char) (title : Option (List Char))
    (kind : String) (chunkTokens overlap : Int) (chunks : List Chunk) : Prop where
  words : ∀ j line, (documentLines text)[j]? = some line →
    headingAt kind (documentLines text) j = none → ∀ w ∈ words line, ∃ c ∈ chunks, w ∈ words c.body
  headings : ∃ home, Placed kind (documentLines text) (sections word text title kind) home ∧
    ∀ s ∈ sections word text title kind, s.words ≠ [] →
      ∃ bodies, pack word s.blocks chunkTokens overlap = .ok bodies ∧ bodies ≠ [] ∧
        ∀ body ∈ bodies, ∃ c ∈ chunks, c.headingPath = s.headingPath ∧ c.body = body

/-- The words of a block are in what is kept of the blocks. -/
def KeepsWords (word : Char → Bool) (sections : List Section) (budget : Int)
    (block : List Char) : Prop :=
  ∀ w ∈ words block, ∃ s ∈ sections, ∃ block' ∈ s.blocks, w ∈ keptWords word budget block'

instance (sections : List Section) (budget : Int) (block : List Char) :
    Decidable (KeepsWords word sections budget block) :=
  inferInstanceAs (Decidable (∀ w ∈ words block, ∃ s ∈ sections, ∃ block' ∈ s.blocks,
    w ∈ keptWords word budget block'))

/-- Every oversized code fence can be fenced again and keeps its words. -/
def KeepsFences (word : Char → Bool) (sections : List Section) (budget : Int) : Prop :=
  ∀ s ∈ sections, ∀ block ∈ s.blocks, Oversized word budget block →
    Refenced block ∧ KeepsWords word sections budget block

instance (sections : List Section) (budget : Int) :
    Decidable (KeepsFences word sections budget) :=
  inferInstanceAs (Decidable (∀ s ∈ sections, ∀ block ∈ s.blocks, Oversized word budget block →
    Refenced block ∧ KeepsWords word sections budget block))

theorem chunkText_eq {text : List Char} {title : Option (List Char)} {kind : String}
    {chunkTokens overlap : Int} (hlow : 0 ≤ overlap) (hhigh : overlap < chunkTokens) :
    chunkText word text title kind chunkTokens overlap =
      ((sections word text title kind).mapM (sectionBodies word chunkTokens overlap)).map
        fun bodies => bodies.flatten.zipIdx.map fun b => ⟨b.2, b.1.1, b.1.2⟩ := by
  rw [chunkText, if_neg (by omega), if_neg (by omega)]
  rfl

/-- The chunks are the bodies with their paths. -/
theorem mem_chunks_iff {bodies : List (List (List Char) × List Char)} {p : List (List Char)}
    {body : List Char} :
    (∃ c ∈ bodies.zipIdx.map (fun b => Chunk.mk b.2 b.1.1 b.1.2),
      c.headingPath = p ∧ c.body = body) ↔ (p, body) ∈ bodies := by
  constructor
  · rintro ⟨c, hc, rfl, rfl⟩
    obtain ⟨b, hb, rfl⟩ := List.mem_map.mp hc
    have hfst := List.mem_map_of_mem (f := Prod.fst) hb
    rwa [List.zipIdx_map_fst] at hfst
  · intro hmem
    rw [← List.zipIdx_map_fst 0 bodies] at hmem
    obtain ⟨b, hb, heq⟩ := List.mem_map.mp hmem
    refine ⟨⟨b.2, b.1.1, b.1.2⟩, List.mem_map.mpr ⟨b, hb, rfl⟩, ?_, ?_⟩
    · rw [heq]
    · rw [heq]

theorem sectionBodies_ok_iff {chunkTokens overlap : Int} {s : Section}
    {bodies : List (List (List Char) × List Char)} :
    sectionBodies word chunkTokens overlap s = .ok bodies ↔
      ∃ texts, pack word s.blocks chunkTokens overlap = .ok texts ∧
        bodies = texts.map fun body => (s.headingPath, body) := by
  rw [sectionBodies]
  cases hpack : pack word s.blocks chunkTokens overlap with
  | error e => exact ⟨by rintro ⟨⟩, by rintro ⟨texts, ⟨⟩, -⟩⟩
  | ok texts =>
      constructor
      · rintro ⟨⟩
        exact ⟨texts, rfl, rfl⟩
      · rintro ⟨texts', ⟨⟩, rfl⟩
        rfl

/-- A body of a section is the body of a chunk with its path, and there are no
other chunks. -/
theorem mem_chunkText {text : List Char} {title : Option (List Char)} {kind : String}
    {chunkTokens overlap : Int} (hlow : 0 ≤ overlap) (hhigh : overlap < chunkTokens)
    {chunks : List Chunk} (h : chunkText word text title kind chunkTokens overlap = .ok chunks) :
    (∀ s ∈ sections word text title kind, ∃ bodies,
      pack word s.blocks chunkTokens overlap = .ok bodies) ∧
    ∀ p body, (∃ c ∈ chunks, c.headingPath = p ∧ c.body = body) ↔
      ∃ s ∈ sections word text title kind, s.headingPath = p ∧
        ∃ bodies, pack word s.blocks chunkTokens overlap = .ok bodies ∧ body ∈ bodies := by
  rw [chunkText_eq hlow hhigh] at h
  cases hall : (sections word text title kind).mapM (sectionBodies word chunkTokens overlap) with
  | error e =>
      rw [hall] at h
      cases h
  | ok all =>
      rw [hall] at h
      cases h
      obtain ⟨hfrom, hto⟩ := mem_of_mapM_eq_ok hall
      constructor
      · intro s hs
        obtain ⟨bodies, -, hok⟩ := hto s hs
        obtain ⟨texts, htexts, -⟩ := sectionBodies_ok_iff.mp hok
        exact ⟨texts, htexts⟩
      · intro p body
        rw [mem_chunks_iff, List.mem_flatten]
        constructor
        · rintro ⟨bodies, hbodies, hmem⟩
          obtain ⟨s, hs, hok⟩ := hfrom bodies hbodies
          obtain ⟨texts, htexts, rfl⟩ := sectionBodies_ok_iff.mp hok
          obtain ⟨body', hbody, heq⟩ := List.mem_map.mp hmem
          obtain ⟨rfl, rfl⟩ := Prod.mk.inj heq
          exact ⟨s, hs, rfl, texts, htexts, hbody⟩
        · rintro ⟨s, hs, rfl, texts, htexts, hbody⟩
          obtain ⟨bodies, hbodies, hok⟩ := hto s hs
          obtain ⟨texts', htexts', rfl⟩ := sectionBodies_ok_iff.mp hok
          rw [htexts] at htexts'
          cases htexts'
          exact ⟨_, hbodies, List.mem_map_of_mem hbody⟩

/-- A document is complete in its chunks exactly when each of its oversized code
fences can be fenced again, and no word is only in lines that are left out of
these. -/
theorem chunkText_complete_iff (word : Char → Bool)
    (hblank : ∀ c, word c = true → isSpace c = false) (text : List Char)
    (title : Option (List Char)) (kind : String) (chunkTokens overlap : Int)
    (hlow : 0 ≤ overlap) (hhigh : overlap < chunkTokens) :
    (∃ chunks, chunkText word text title kind chunkTokens overlap = .ok chunks ∧
      Complete word text title kind chunkTokens overlap chunks) ↔
      KeepsFences word (sections word text title kind) chunkTokens := by
  have hbudget : 0 < chunkTokens := by omega
  obtain ⟨home, hplaced⟩ := @placed_sections word text title kind
  constructor
  · rintro ⟨chunks, hchunks, hcomplete⟩
    obtain ⟨hpacks, hmem⟩ := mem_chunkText hlow hhigh hchunks
    have hfenced : ∀ s ∈ sections word text title kind, ∀ block ∈ s.blocks,
        Oversized word chunkTokens block → Refenced block := by
      intro s hs
      obtain ⟨bodies, hbodies⟩ := hpacks s hs
      exact refenced_of_pack_ok hbodies
    intro s hs block hblock hover
    refine ⟨hfenced s hs block hblock hover, fun w hw => ?_⟩
    obtain ⟨j, line, hline, hhead, hw⟩ := hplaced.line_of_word hs hblock hw
    obtain ⟨c, hc, hw⟩ := hcomplete.words j line hline hhead w hw
    obtain ⟨s', hs', -, bodies, hbodies, hbody⟩ := (hmem c.headingPath c.body).mp ⟨c, hc, rfl, rfl⟩
    obtain ⟨bodies', hbodies', -, hwords⟩ := pack_ok hblank hbudget overlap (hfenced s' hs')
    rw [hbodies] at hbodies'
    cases hbodies'
    exact ⟨s', hs', (hwords w).mp ⟨c.body, hbody, hw⟩⟩
  · intro hkeeps
    have hpack : ∀ s ∈ sections word text title kind, ∃ bodies,
        pack word s.blocks chunkTokens overlap = .ok bodies ∧ (s.blocks ≠ [] → bodies ≠ []) ∧
          ∀ w, (∃ body ∈ bodies, w ∈ words body) ↔
            ∃ block ∈ s.blocks, w ∈ keptWords word chunkTokens block := fun s hs =>
      pack_ok hblank hbudget overlap fun block hblock hover => (hkeeps s hs block hblock hover).1
    have hsome : ∀ s ∈ sections word text title kind, ∃ bodies,
        sectionBodies word chunkTokens overlap s = .ok bodies := by
      intro s hs
      obtain ⟨bodies, hbodies, -⟩ := hpack s hs
      exact ⟨_, sectionBodies_ok_iff.mpr ⟨bodies, hbodies, rfl⟩⟩
    obtain ⟨all, hall⟩ := exists_mapM_ok_iff.mpr hsome
    have hchunks := @chunkText_eq word text title kind chunkTokens overlap hlow hhigh
    rw [hall] at hchunks
    obtain ⟨-, hmem⟩ := mem_chunkText hlow hhigh hchunks
    refine ⟨_, hchunks, fun j line hline hhead w hw => ?_, home, hplaced, fun s hs hwords => ?_⟩
    · obtain ⟨s, hs, block, hblock, hw⟩ :=
        hplaced.word_of_line (mem_lineWords.mpr ⟨line, hline, hhead, hw⟩)
      have hkept : ∃ s ∈ sections word text title kind, ∃ block ∈ s.blocks,
          w ∈ keptWords word chunkTokens block := by
        by_cases hover : Oversized word chunkTokens block
        · exact (hkeeps s hs block hblock hover).2 w hw
        · exact ⟨s, hs, block, hblock, by rw [keptWords, if_neg hover]; exact hw⟩
      obtain ⟨s', hs', hblock'⟩ := hkept
      obtain ⟨bodies, hbodies, -, hwords⟩ := hpack s' hs'
      obtain ⟨body, hbody, hw⟩ := (hwords w).mpr hblock'
      obtain ⟨c, hc, -, rfl⟩ := (hmem s'.headingPath body).mpr ⟨s', hs', rfl, bodies, hbodies, hbody⟩
      exact ⟨c, hc, hw⟩
    · obtain ⟨bodies, hbodies, hne, -⟩ := hpack s hs
      have hblocks : s.blocks ≠ [] := by
        intro hempty
        exact hwords (by rw [Section.words, hempty, List.flatMap_nil])
      refine ⟨bodies, hbodies, hne hblocks, fun body hbody => ?_⟩
      exact (hmem s.headingPath body).mpr ⟨s, hs, rfl, bodies, hbodies, hbody⟩

end

/-- A heading with text, a nested one, and a fence that holds a mark. -/
def guide : List Char := "# Guide\nfirst steps\n## Install\n~~~\n# comment\n~~~\n".toList

theorem chunkText_complete_guide :
    (0 ≤ (2 : Int) ∧ (2 : Int) < 5) ∧ ∃ chunks,
      chunkText plainWord guide none "text" 5 2 = .ok chunks ∧
        Complete plainWord guide none "text" 5 2 chunks :=
  ⟨by decide, (chunkText_complete_iff plainWord isSpace_of_plainWord guide none "text" 5 2 (by decide)
    (by decide)).mpr (by decide +kernel)⟩

/-- A fence of one line, and one that quotes a shorter fence. -/
def fenceLine : List Char := List.replicate 2001 '\x60'

def quotedFence : List Char :=
  List.replicate 4 '\x60' ++ '\n' :: (List.replicate 3 '\x60' ++ 'l' :: 'o' :: 's' :: 't' :: '\n' ::
    List.replicate 2001 '!')

/-- The first raises, and the second loses a word. -/
theorem chunkText_oversized :
    (chunkText plainWord fenceLine none "text" 1 0).toOption = none ∧
      ¬ ∃ chunks, chunkText plainWord quotedFence none "text" 1 0 = .ok chunks ∧
        Complete plainWord quotedFence none "text" 1 0 chunks := by
  refine ⟨by decide +kernel, ?_⟩
  rintro ⟨chunks, hchunks, hcomplete⟩
  have hlost : (chunkText plainWord quotedFence none "text" 1 0).toOption.all fun chunks =>
      chunks.all fun c => !(words c.body).contains (List.replicate 3 '\x60' ++ ['l', 'o', 's', 't']) := by
    decide +kernel
  rw [hchunks] at hlost
  obtain ⟨c, hc, hw⟩ := hcomplete.words 1 (List.replicate 3 '\x60' ++ ['l', 'o', 's', 't'])
    (by decide +kernel) (by decide +kernel) (List.replicate 3 '\x60' ++ ['l', 'o', 's', 't'])
    (by decide +kernel)
  have hnone := List.all_eq_true.mp hlost c hc
  rw [Bool.not_eq_true', List.contains_eq_mem, decide_eq_false_iff_not] at hnone
  exact hnone hw

end MarkSdk.Chunking
