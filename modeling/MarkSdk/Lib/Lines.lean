import Mathlib.Data.List.Defs

/-!
Texts that are stored as lines, in parts.

A list of texts is cut into parts, and each part is one text with a text on
each line. Reading splits the parts at the line breaks. A text with a line
break in it comes back in pieces, so that there are more of them than before:
when as many come back as were stored, it is the same list
(`eq_of_length_split`).
-/

namespace MarkSdk.Lib

/-- `"\n".join(texts)` -/
def joinLines (texts : List String) : String :=
  String.ofList (['\n'].intercalate (texts.map String.toList))

/-- `text.split("\n")` -/
def splitLines (text : String) : List String := (text.toList.splitOn '\n').map String.ofList

/-- The texts in parts of at most `size`, each part as lines. -/
def partedLines (size : Nat) (texts : List String) : List String :=
  (texts.toChunks size).map joinLines

theorem flatten_toChunks {α : Type} (size : Nat) (xs : List α) :
    (xs.toChunks size).flatten = xs := by
  have hgo : ∀ (n : Nat) (ys : List α) (part : Array α) (parts : Array (List α)),
      (List.toChunks.go n ys part parts).flatten = parts.toList.flatten ++ part.toList ++ ys := by
    intro n ys
    induction ys with
    | nil => simp [List.toChunks.go]
    | cons y ys ih =>
        intro part parts
        unfold List.toChunks.go
        split
        · rw [ih]
          simp
        · rw [ih]
          simp
  cases xs with
  | nil => simp [List.toChunks]
  | cons x xs =>
      cases size with
      | zero => simp [List.toChunks]
      | succ n =>
          show (List.toChunks.go n.succ xs #[x] #[]).flatten = x :: xs
          rw [hgo]
          simp

/-- Splitting what was joined splits each of the texts. -/
theorem splitOn_intercalate_eq_flatMap (texts : List (List Char)) (h : texts ≠ []) :
    (['\n'].intercalate texts).splitOn '\n' = texts.flatMap fun text => text.splitOn '\n' := by
  induction texts with
  | nil => exact absurd rfl h
  | cons text texts ih =>
      cases texts with
      | nil => simp
      | cons next texts =>
          rw [List.intercalate_cons_cons, List.append_assoc, List.singleton_append,
            List.splitOn_append_cons_self, ih (by simp), ← List.flatMap_cons]

theorem one_le_length_splitLines (text : String) : 1 ≤ (splitLines text).length := by
  unfold splitLines
  rw [List.length_map]
  exact List.length_pos_iff.mpr (List.splitOn_ne_nil _ _)

/-- A text that is not cut is as it was. -/
theorem splitLines_of_length_le {text : String} (h : (splitLines text).length ≤ 1) :
    splitLines text = [text] := by
  have hlength := Nat.le_antisymm h (one_le_length_splitLines text)
  have hback : ['\n'].intercalate (text.toList.splitOn '\n') = text.toList :=
    List.intercalate_splitOn '\n'
  unfold splitLines at hlength ⊢
  rw [List.length_map] at hlength
  obtain ⟨chars, hchars⟩ := List.length_eq_one_iff.mp hlength
  rw [hchars] at hback ⊢
  rw [List.intercalate_singleton] at hback
  rw [hback, List.map_singleton, String.ofList_toList]

theorem splitLines_joinLines {texts : List String} (h : texts ≠ []) :
    splitLines (joinLines texts) = texts.flatMap splitLines := by
  unfold splitLines joinLines
  rw [String.toList_ofList, splitOn_intercalate_eq_flatMap _ (by simpa using h), List.flatMap_map,
    List.map_flatMap]

/-- A text without a line break is one line. -/
theorem splitLines_of_line {text : String} (h : '\n' ∉ text.toList) :
    splitLines text = [text] := by
  have hcut : text.toList.splitOn '\n' = [text.toList] := by
    unfold List.splitOn
    refine List.splitOnP_eq_singleton fun c hc => ?_
    rw [beq_eq_false_iff_ne]
    rintro rfl
    exact h hc
  unfold splitLines
  rw [hcut, List.map_singleton, String.ofList_toList]

/-- Lines are read back as they were. -/
theorem splitLines_joinLines_of_lines {texts : List String} (hne : texts ≠ [])
    (h : ∀ text ∈ texts, '\n' ∉ text.toList) : splitLines (joinLines texts) = texts := by
  rw [splitLines_joinLines hne]
  clear hne
  induction texts with
  | nil => rfl
  | cons text texts ih =>
      rw [List.flatMap_cons, splitLines_of_line (h text List.mem_cons_self),
        ih fun t ht => h t (List.mem_cons_of_mem text ht), List.singleton_append]

theorem length_le_flatMap_splitLines (texts : List String) :
    texts.length ≤ (texts.flatMap splitLines).length := by
  induction texts with
  | nil => simp
  | cons text texts ih =>
      rw [List.flatMap_cons, List.length_append, List.length_cons]
      have := one_le_length_splitLines text
      omega

/-- Each text is split to itself when there are no more pieces than texts. -/
theorem flatMap_splitLines_of_length {texts : List String}
    (h : (texts.flatMap splitLines).length = texts.length) : texts.flatMap splitLines = texts := by
  induction texts with
  | nil => rfl
  | cons text texts ih =>
      rw [List.flatMap_cons, List.length_append, List.length_cons] at h
      have hone := one_le_length_splitLines text
      have hrest := length_le_flatMap_splitLines texts
      rw [List.flatMap_cons, splitLines_of_length_le (by omega), ih (by omega),
        List.singleton_append]

theorem length_le_splitLines_joinLines (part : List String) :
    part.length ≤ (splitLines (joinLines part)).length := by
  cases part with
  | nil => exact Nat.zero_le _
  | cons text part =>
      rw [splitLines_joinLines (by simp)]
      exact length_le_flatMap_splitLines _

theorem splitLines_joinLines_of_length {part : List String}
    (h : (splitLines (joinLines part)).length = part.length) :
    splitLines (joinLines part) = part := by
  cases part with
  | nil =>
      -- no text at all is read back as one empty text
      have hone := one_le_length_splitLines (joinLines [])
      rw [h, List.length_nil] at hone
      omega
  | cons text part =>
      rw [splitLines_joinLines (by simp)] at h ⊢
      exact flatMap_splitLines_of_length h

/-- As many texts as were stored are the same texts. -/
theorem eq_of_length_split {size : Nat} {texts : List String}
    (h : ((partedLines size texts).flatMap splitLines).length = texts.length) :
    (partedLines size texts).flatMap splitLines = texts := by
  have hparts : ∀ parts : List (List String),
      parts.flatten.length ≤ ((parts.map joinLines).flatMap splitLines).length ∧
        (((parts.map joinLines).flatMap splitLines).length = parts.flatten.length →
          (parts.map joinLines).flatMap splitLines = parts.flatten) := by
    intro parts
    induction parts with
    | nil => simp
    | cons part parts ih =>
        obtain ⟨hle, heq⟩ := ih
        have hpart := length_le_splitLines_joinLines part
        simp only [List.map_cons, List.flatMap_cons, List.flatten_cons, List.length_append]
        refine ⟨by omega, fun hlength => ?_⟩
        rw [splitLines_joinLines_of_length (by omega), heq (by omega)]
  have hall := (hparts (texts.toChunks size)).2
  rw [flatten_toChunks] at hall
  exact hall h

end MarkSdk.Lib
